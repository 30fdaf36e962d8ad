import Dbflux.Lib.Tree

/-!
# Document patches

Model of `dbflux_core/src/data/document_edit.rs`: paths (lines 21–58), the edits
at a path (lines 62–144) and `DocumentPatch` with `diff` and `apply_to` (lines
157–299). A `Value` is a tree whose leaves are its variants other than `Array`
and `Document`; nothing here looks into a leaf except the comparison `eq` of two
of them (`PartialEq`). A `BTreeMap` is the list of its entries, of which only the
names and their values are observed.

Results:
* `diff_eq`: the patch of two documents, by the paths relative to every value.
* `pairwise_apart_changes`: its paths do not overlap.
* `setValueAtPath_of_edit`, `removeValueAtPath_of_edit`: where an edit succeeds,
  the code performs it.
-/

namespace Dbflux.DocumentEdit

open Dbflux.Lib Dbflux.Lib.ValueTree List

variable {S : Type}

/-! ## Paths -/

/-- `field_path_to_dotted` (lines 23–25). -/
def fieldPathToDotted (path : Path) : Text := ['.'].intercalate path

/-- `field_paths_overlap` (lines 39–42). -/
def fieldPathsOverlap (first second : Path) : Bool :=
  let shared := min first.length second.length
  first.take shared = second.take shared

/-- `set_value_at_path` (lines 62–109); `none` is its `false`, which leaves the
value as it is. -/
def setValueAtPath (newValue : ValueTree S) : Path → ValueTree S → Option (ValueTree S)
  | [], _ => some newValue
  | segment :: rest, document fields =>
    (setValueAtPath newValue rest ((fields.lookup segment).getD (document []))).map fun value =>
      document (put segment value fields)
  | segment :: rest, array items => do
    let index ← parseUsize segment
    let item ← items[index]?
    let item ← setValueAtPath newValue rest item
    return array (items.set index item)
  | _ :: _, leaf _ => none

/-- `remove_value_at_path` (lines 110–144). -/
def removeValueAtPath : Path → ValueTree S → Option (ValueTree S)
  | [], _ => none
  | [last], document fields =>
    if (fields.lookup last).isSome then some (document (drop last fields)) else none
  | [_], _ => none
  | segment :: rest, document fields => do
    let value ← removeValueAtPath rest (← fields.lookup segment)
    return document (put segment value fields)
  | segment :: rest, array items => do
    let index ← parseUsize segment
    let item ← removeValueAtPath rest (← items[index]?)
    return array (items.set index item)
  | _ :: _, leaf _ => none

theorem not_fieldPathsOverlap_iff (first second : Path) :
    fieldPathsOverlap first second = false ↔ Apart first second := by
  have hoverlap : fieldPathsOverlap first second = true ↔ first <+: second ∨ second <+: first := by
    unfold fieldPathsOverlap
    rw [decide_eq_true_eq]
    constructor
    · intro h
      rcases Nat.le_total first.length second.length with hle | hle
      · rw [Nat.min_eq_left hle, take_length] at h
        exact .inl (h ▸ take_prefix _ _)
      · rw [Nat.min_eq_right hle, take_length] at h
        exact .inr (h ▸ take_prefix _ _)
    · rintro (⟨rest, rfl⟩ | ⟨rest, rfl⟩) <;> simp
  rw [← Bool.not_eq_true, hoverlap, not_or, Apart]

variable {path : Path} {eq : S → S → Bool} {index : ℕ} {value result : ValueTree S}

theorem setValueAtPath_of_edit {newValue : ValueTree S}
    (h : edit path (some newValue) (some value) = some (some result)) :
    setValueAtPath newValue path value = some result := by
  have hedits := edits_of_edit h
  clear h
  induction hedits with
  | put hchange =>
    cases hchange
    rfl
  | last => simp [setValueAtPath, store]
  | field _ hlookup _ ih => simp [setValueAtPath, hlookup, ih, store]
  | item _ hi hitem _ ih => simp [setValueAtPath, parseUsize_of_position hi, hitem, ih]

theorem removeValueAtPath_of_edit (h : edit path none (some value) = some (some result)) :
    removeValueAtPath path value = some result := by
  have hedits := edits_of_edit h
  clear h
  induction hedits with
  | put hchange => cases hchange
  | last hfield => simp [removeValueAtPath, hfield rfl, store]
  | field _ hlookup _ ih => simp [removeValueAtPath, hlookup, ih, store]
  | item hrest hi hitem _ ih =>
    simp [removeValueAtPath, hrest rfl, parseUsize_of_position hi, hitem, ih]

/-! ## Patches -/

/-- `DocumentPatch` (lines 157–160). -/
structure DocumentPatch (S : Type) where
  set : List (Path × ValueTree S)
  unset : List Path

namespace DocumentPatch

def empty : DocumentPatch S := ⟨[], []⟩

def isEmpty (patch : DocumentPatch S) : Bool := patch.set.isEmpty && patch.unset.isEmpty

/-- `touched_paths` (lines 241–247). -/
def touchedPaths (patch : DocumentPatch S) : List Path := patch.set.map Prod.fst ++ patch.unset

/-- `apply_to` (lines 250–258). -/
def applyTo (patch : DocumentPatch S) (document : ValueTree S) : ValueTree S :=
  let document := patch.set.foldl
    (fun document entry => (setValueAtPath entry.2 entry.1 document).getD document) document
  patch.unset.foldl (fun document path => (removeValueAtPath path document).getD document) document

end DocumentPatch

/-- The last arm of `diff_into` (lines 294–297). -/
def setWhole (patch : DocumentPatch S) (path : Path) (edited : ValueTree S) : DocumentPatch S :=
  if path = [] then patch else { patch with set := patch.set ++ [(path, edited)] }

/-- The loop over the fields of the original (lines 268–274). -/
def unsetRemoved (patch : DocumentPatch S) (path : Path) (before after : List (Text × ValueTree S)) :
    DocumentPatch S :=
  before.foldl (fun patch field =>
    if (after.lookup field.1).isSome then patch
    else { patch with unset := patch.unset ++ [path ++ [field.1]] }) patch

mutual

/-- `diff_into` (lines 260–299). -/
def diffInto (eq : S → S → Bool) (patch : DocumentPatch S) (path : Path) (original : ValueTree S) :
    ValueTree S → DocumentPatch S
  | leaf edited =>
    if same eq original (leaf edited) then patch else setWhole patch path (leaf edited)
  | array after =>
    if same eq original (array after) then patch
    else match original with
      | array before =>
        if before.length = after.length ∧ path ≠ [] then diffItems eq patch path 0 before after
        else setWhole patch path (array after)
      | _ => setWhole patch path (array after)
  | document after =>
    if same eq original (document after) then patch
    else match original with
      | document before =>
        diffFields eq (unsetRemoved patch path before after) path before after
      | _ => setWhole patch path (document after)

/-- The loop over the items (lines 288–292). -/
def diffItems (eq : S → S → Bool) (patch : DocumentPatch S) (path : Path) (index : ℕ) :
    List (ValueTree S) → List (ValueTree S) → DocumentPatch S
  | item :: before, edited :: after =>
    diffItems eq (diffInto eq patch (path ++ [decimal index]) item edited) path (index + 1)
      before after
  | _, _ => patch

/-- The loop over the fields of the edited document (lines 276–283). -/
def diffFields (eq : S → S → Bool) (patch : DocumentPatch S) (path : Path)
    (before : List (Text × ValueTree S)) : List (Text × ValueTree S) → DocumentPatch S
  | [] => patch
  | (key, edited) :: after =>
    let patch := match before.lookup key with
      | some original => diffInto eq patch (path ++ [key]) original edited
      | none => { patch with set := patch.set ++ [(path ++ [key], edited)] }
    diffFields eq patch path before after

end

/-- `DocumentPatch::diff` (lines 224–229). -/
def diff (eq : S → S → Bool) (original edited : ValueTree S) : DocumentPatch S :=
  diffInto eq .empty [] original edited

/-! ## Changes relative to a value -/

/-- The fields that the edited document does not have. -/
def removedFields (before after : List (Text × ValueTree S)) : List (Path × Option (ValueTree S)) :=
  (before.filter fun field => (after.lookup field.1).isNone).map fun field => ([field.1], none)

mutual

/-- What turns a value into another one, in the order in which `diff_into` finds
it, with the paths from the value on. -/
def changes (eq : S → S → Bool) (original : ValueTree S) :
    ValueTree S → List (Path × Option (ValueTree S))
  | leaf edited => if same eq original (leaf edited) then [] else [([], some (leaf edited))]
  | array after =>
    if same eq original (array after) then []
    else match original with
      | array before =>
        if before.length = after.length then changesItems eq 0 before after
        else [([], some (array after))]
      | _ => [([], some (array after))]
  | document after =>
    if same eq original (document after) then []
    else match original with
      | document before => removedFields before after ++ changesFields eq before after
      | _ => [([], some (document after))]

def changesItems (eq : S → S → Bool) (index : ℕ) :
    List (ValueTree S) → List (ValueTree S) → List (Path × Option (ValueTree S))
  | item :: before, edited :: after =>
    behind (decimal index) (changes eq item edited) ++ changesItems eq (index + 1) before after
  | _, _ => []

def changesFields (eq : S → S → Bool) (before : List (Text × ValueTree S)) :
    List (Text × ValueTree S) → List (Path × Option (ValueTree S))
  | [] => []
  | (key, edited) :: after =>
    behind key (match before.lookup key with
      | some original => changes eq original edited
      | none => [([], some edited)]) ++ changesFields eq before after

end

variable {original edited : ValueTree S}

theorem changes_of_same (h : same eq original edited) : changes eq original edited = [] := by
  cases edited with
  | leaf a => rw [changes, if_pos h]
  | array after =>
    cases original with
    | array before => rw [changes, if_pos h]
    | leaf | document => cases h
  | document after =>
    cases original with
    | document before => rw [changes, if_pos h]
    | leaf | array => cases h

/-- The values to set before the fields to remove. -/
def setsFirst (edits : List (Path × Option (ValueTree S))) : List (Path × Option (ValueTree S)) :=
  edits.filter (fun change => change.2.isSome) ++ edits.filter fun change => change.2.isNone

namespace DocumentPatch

/-- The patch with further changes, whose paths start behind `path`. -/
def extend (patch : DocumentPatch S) (path : Path) (edits : List (Path × Option (ValueTree S))) :
    DocumentPatch S where
  set := patch.set ++ edits.filterMap fun change => change.2.map fun value =>
    (path ++ change.1, value)
  unset := patch.unset ++ (edits.filter fun change => change.2.isNone).map fun change =>
    path ++ change.1

variable (patch : DocumentPatch S)

@[simp] theorem extend_nil (path : Path) : patch.extend path [] = patch := by
  simp [extend]

theorem extend_append (path : Path) (edits more : List (Path × Option (ValueTree S))) :
    patch.extend path (edits ++ more) = (patch.extend path edits).extend path more := by
  simp [extend]

theorem extend_behind (path : Path) (name : Text) (edits : List (Path × Option (ValueTree S))) :
    patch.extend path (behind name edits) = patch.extend (path ++ [name]) edits := by
  simp [extend, behind, filterMap_map, filter_map, Function.comp_def]

/-- The changes of a patch, in the order in which they are applied. -/
def edits (patch : DocumentPatch S) : List (Path × Option (ValueTree S)) :=
  patch.set.map (fun entry => (entry.1, some entry.2)) ++ patch.unset.map fun path => (path, none)

theorem edits_extend_empty (changes : List (Path × Option (ValueTree S))) :
    (empty.extend [] changes).edits = setsFirst changes := by
  have hset : ∀ changes : List (Path × Option (ValueTree S)),
      (changes.filterMap fun change => change.2.map fun value => (change.1, value)).map
        (fun entry => (entry.1, some entry.2)) = changes.filter fun change => change.2.isSome := by
    intro changes
    induction changes with
    | nil => rfl
    | cons change rest ih =>
      obtain ⟨path, _ | value⟩ := change <;> simp [ih]
  have hunset : ∀ changes : List (Path × Option (ValueTree S)),
      ((changes.filter fun change => change.2.isNone).map fun change => change.1).map
        (fun path => (path, (none : Option (ValueTree S)))) =
      changes.filter fun change => change.2.isNone := by
    intro changes
    induction changes with
    | nil => rfl
    | cons change rest ih =>
      obtain ⟨path, _ | value⟩ := change <;> simp_all
  simp [edits, extend, empty, hset, hunset, setsFirst]

theorem touchedPaths_eq : patch.touchedPaths = patch.edits.map Prod.fst := by
  simp [touchedPaths, edits, Function.comp_def]

end DocumentPatch

theorem setWhole_eq (h : path ≠ []) (patch : DocumentPatch S) (edited : ValueTree S) :
    setWhole patch path edited = patch.extend path [([], some edited)] := by
  simp [setWhole, h, DocumentPatch.extend]

theorem unsetRemoved_eq (path : Path) (before after : List (Text × ValueTree S)) :
    unsetRemoved patch path before after = patch.extend path (removedFields before after) := by
  unfold unsetRemoved
  induction before generalizing patch with
  | nil => simp [removedFields]
  | cons field rest ih =>
    rw [foldl_cons, ih]
    cases hfield : after.lookup field.1 with
    | none => simp [removedFields, hfield, DocumentPatch.extend]
    | some value => simp [removedFields, hfield]

variable {before after : List (ValueTree S)}

theorem diffItems_eq
    (ih : ∀ edited ∈ after, ∀ (patch : DocumentPatch S) (path : Path) (original : ValueTree S),
      path ≠ [] → diffInto eq patch path original edited =
        patch.extend path (changes eq original edited)) (patch : DocumentPatch S) (index : ℕ) :
    diffItems eq patch path index before after =
      patch.extend path (changesItems eq index before after) := by
  induction after generalizing patch index before with
  | nil => cases before <;> simp [diffItems, changesItems]
  | cons edited rest ihRest =>
    cases before with
    | nil => simp [diffItems, changesItems]
    | cons item before =>
      rw [forall_mem_cons] at ih
      rw [diffItems, changesItems, ih.1 _ _ _ (by simp), ihRest ih.2,
        DocumentPatch.extend_append, DocumentPatch.extend_behind]

theorem diffFields_eq {before after : List (Text × ValueTree S)}
    (ih : ∀ field ∈ after, ∀ (patch : DocumentPatch S) (path : Path) (original : ValueTree S),
      path ≠ [] → diffInto eq patch path original field.2 =
        patch.extend path (changes eq original field.2)) (patch : DocumentPatch S) :
    diffFields eq patch path before after = patch.extend path (changesFields eq before after) := by
  induction after generalizing patch with
  | nil => simp [diffFields, changesFields]
  | cons field rest ihRest =>
    obtain ⟨key, edited⟩ := field
    rw [forall_mem_cons] at ih
    rw [diffFields, changesFields, DocumentPatch.extend_append, DocumentPatch.extend_behind,
      ← ihRest ih.2]
    congr 1
    cases before.lookup key with
    | none => simp [DocumentPatch.extend]
    | some original => exact ih.1 _ _ _ (by simp)

theorem diffInto_eq (edited : ValueTree S) :
    ∀ (patch : DocumentPatch S) (path : Path) (original : ValueTree S), path ≠ [] →
      diffInto eq patch path original edited = patch.extend path (changes eq original edited) := by
  induction edited using induct with intro patch path original hpath
  | leaf a =>
    rw [diffInto, changes]
    split_ifs
    · simp
    · exact setWhole_eq hpath patch _
  | array after ih =>
    cases original with
    | array before =>
      rw [diffInto, changes]
      simp only [hpath, ne_eq, not_false_eq_true, and_true]
      split_ifs
      · simp
      · exact diffItems_eq ih patch 0
      · exact setWhole_eq hpath patch _
    | leaf | document => exact setWhole_eq hpath patch _
  | document after ih =>
    cases original with
    | document before =>
      rw [diffInto, changes]
      split_ifs
      · simp
      · rw [diffFields_eq ih, unsetRemoved_eq, DocumentPatch.extend_append]
    | leaf | array => exact setWhole_eq hpath patch _

/-- **The patch of two documents.** -/
theorem diff_eq (eq : S → S → Bool) (before after : List (Text × ValueTree S)) :
    diff eq (document before) (document after) =
      DocumentPatch.empty.extend [] (changes eq (document before) (document after)) := by
  rw [diff, diffInto, changes]
  split_ifs
  · simp
  · rw [diffFields_eq (fun field _ => diffInto_eq field.2), unsetRemoved_eq,
      DocumentPatch.extend_append]

/-! ## The changes under a step -/

theorem under_setsFirst (name : Text) (edits : List (Path × Option (ValueTree S))) :
    under name (setsFirst edits) = setsFirst (under name edits) := by
  have hfilter : ∀ keep : Option (ValueTree S) → Bool,
      under name (edits.filter fun change => keep change.2) =
        (under name edits).filter fun change => keep change.2 := by
    intro keep
    induction edits with
    | nil => rfl
    | cons change rest ih =>
      obtain ⟨_ | ⟨head, tail⟩, value⟩ := change
      · cases hkeep : keep value <;> simpa [hkeep, under] using ih
      · by_cases hhead : head = name
        · subst hhead
          cases hkeep : keep value <;> simp [hkeep, under_cons_self, ih]
        · cases hkeep : keep value <;> simp [hkeep, under_cons_of_ne hhead, ih]
  rw [setsFirst, under_append, hfilter Option.isSome, hfilter Option.isNone, setsFirst]

theorem under_removedFields {before : List (Text × ValueTree S)} (h : (before.map Prod.fst).Nodup)
    (after : List (Text × ValueTree S)) (name : Text) :
    under name (removedFields before after) =
      if (before.lookup name).isSome ∧ (after.lookup name).isNone then [([], none)] else [] := by
  induction before with
  | nil => simp [removedFields, under]
  | cons field rest ih =>
    obtain ⟨key, value⟩ := field
    rw [map_cons, nodup_cons] at h
    have hrest := ih h.2
    rw [removedFields] at hrest ⊢
    by_cases hname : name = key
    · subst hname
      rw [lookup_eq_none_of_not_mem h.1, Option.isSome_none] at hrest
      cases hafter : after.lookup name with
      | none =>
        rw [filter_cons_of_pos (by simp [hafter]), map_cons, under_cons_self, hrest]
        simp
      | some other =>
        rw [filter_cons_of_neg (by simp [hafter]), hrest]
        simp
    · rw [lookup_cons_of_ne hname, ← hrest]
      cases hafter : after.lookup key with
      | none =>
        rw [filter_cons_of_pos (by simp [hafter]), map_cons, under_cons_of_ne (Ne.symm hname)]
      | some other => rw [filter_cons_of_neg (by simp [hafter])]

/-- The change of a field. -/
def fieldChanges (eq : S → S → Bool) : Option (ValueTree S) → Option (ValueTree S) →
    List (Path × Option (ValueTree S))
  | some original, some edited => changes eq original edited
  | none, some edited => [([], some edited)]
  | some _, none => [([], none)]
  | none, none => []

theorem fieldChanges_cases {original edited : Option (ValueTree S)} {rest : Path}
    {change : Option (ValueTree S)} (h : (rest, change) ∈ fieldChanges eq original edited) :
    (∃ old new, original = some old ∧ edited = some new ∧ (rest, change) ∈ changes eq old new) ∨
      (original = none ∧ ∃ new, edited = some new ∧ rest = [] ∧ change = some new) ∨
      ((∃ old, original = some old) ∧ edited = none ∧ rest = [] ∧ change = none) := by
  cases original with
  | none =>
    cases edited with
    | none => cases h
    | some new =>
      exact Or.inr (Or.inl ⟨rfl, new, rfl, Prod.mk.inj (mem_singleton.mp h)⟩)
  | some old =>
    cases edited with
    | none => exact Or.inr (Or.inr ⟨⟨old, rfl⟩, rfl, Prod.mk.inj (mem_singleton.mp h)⟩)
    | some new => exact .inl ⟨old, new, rfl, rfl, h⟩

theorem under_changesFields (before : List (Text × ValueTree S)) {after : List (Text × ValueTree S)}
    (h : (after.map Prod.fst).Nodup) (name : Text) :
    under name (changesFields eq before after) =
      if (after.lookup name).isSome then fieldChanges eq (before.lookup name) (after.lookup name)
      else [] := by
  induction after with
  | nil => rfl
  | cons field rest ih =>
    obtain ⟨key, edited⟩ := field
    rw [map_cons, nodup_cons] at h
    rw [changesFields, under_append, under_behind, ih h.2]
    by_cases hname : name = key
    · subst hname
      rw [lookup_eq_none_of_not_mem h.1, lookup_cons_self, if_pos rfl]
      cases before.lookup name <;> simp [fieldChanges]
    · rw [lookup_cons_of_ne hname, if_neg (Ne.symm hname), nil_append]

/-- The changes of two documents, field by field. -/
theorem under_changes_document {before after : List (Text × ValueTree S)}
    (hbefore : (before.map Prod.fst).Nodup) (hafter : (after.map Prod.fst).Nodup)
    (hsame : ¬ same eq (document before) (document after)) (name : Text) :
    under name (changes eq (document before) (document after)) =
      fieldChanges eq (before.lookup name) (after.lookup name) := by
  rw [changes, if_neg hsame, under_append, under_removedFields hbefore,
    under_changesFields before hafter]
  cases before.lookup name <;> cases after.lookup name <;> simp [fieldChanges]

theorem under_changesItems_of_lt {i : ℕ} (h : i < index) (before after : List (ValueTree S)) :
    under (decimal i) (changesItems eq index before after) = [] := by
  induction after generalizing index before with
  | nil => cases before <;> simp [changesItems, under]
  | cons edited after ih =>
    cases before with
    | nil => simp [changesItems, under]
    | cons item before =>
      have hne : decimal index ≠ decimal i := fun heq =>
        absurd (decimal_injective heq) (Nat.ne_of_gt h)
      rw [changesItems, under_append, under_behind, if_neg hne, ih (by omega), nil_append]

theorem under_changesItems (eq : S → S → Bool) (index j : ℕ) {item edited : ValueTree S}
    (hitem : before[j]? = some item) (hedited : after[j]? = some edited) :
    under (decimal (index + j)) (changesItems eq index before after) = changes eq item edited := by
  induction after generalizing index j before with
  | nil => cases hedited
  | cons first after ih =>
    cases before with
    | nil => cases hitem
    | cons start before =>
      rw [changesItems, under_append, under_behind]
      cases j with
      | zero =>
        cases hitem
        cases hedited
        rw [Nat.add_zero, if_pos rfl, under_changesItems_of_lt (Nat.lt_succ_self _), append_nil]
      | succ j =>
        have hne : decimal index ≠ decimal (index + (j + 1)) := fun heq => by
          have := decimal_injective heq
          omega
        rw [if_neg hne, nil_append, ← ih (index + 1) j hitem hedited]
        congr 2
        omega

theorem mem_changesItems {change : Option (ValueTree S)}
    (h : (path, change) ∈ changesItems eq index before after) :
    ∃ j rest item edited, before[j]? = some item ∧ after[j]? = some edited ∧
      path = decimal (index + j) :: rest ∧ (rest, change) ∈ changes eq item edited := by
  induction after generalizing index before with
  | nil => cases before <;> simp [changesItems] at h
  | cons first after ih =>
    cases before with
    | nil => simp [changesItems] at h
    | cons start before =>
      rw [changesItems, mem_append] at h
      obtain hfirst | hrest := h
      · obtain ⟨⟨rest, _⟩, hmem, heq⟩ := mem_map.mp hfirst
        cases heq
        exact ⟨0, rest, start, first, rfl, rfl, rfl, hmem⟩
      · obtain ⟨j, rest, item, edited, hitem, hedited, rfl, hmem⟩ := ih hrest
        refine ⟨j + 1, rest, item, edited, hitem, hedited, ?_, hmem⟩
        congr 2
        omega

/-- The changes of two arrays of one length, item by item. -/
theorem under_changesItems_cases (eq : S → S → Bool) (before after : List (ValueTree S)) (name : Text) :
    under name (changesItems eq 0 before after) = [] ∨
      ∃ j item edited, name = decimal j ∧ before[j]? = some item ∧ after[j]? = some edited ∧
        under name (changesItems eq 0 before after) = changes eq item edited := by
  cases hunder : under name (changesItems eq 0 before after) with
  | nil => exact .inl rfl
  | cons change rest =>
    right
    have hmem : change ∈ under name (changesItems eq 0 before after) := by
      rw [hunder]
      exact mem_cons_self
    obtain ⟨j, _, item, edited, hitem, hedited, hpath, -⟩ := mem_changesItems (mem_under.mp hmem)
    have hname : name = decimal (0 + j) := (List.cons.inj hpath).1
    refine ⟨j, item, edited, by rw [hname, Nat.zero_add], hitem, hedited, ?_⟩
    rw [← hunder, hname]
    exact under_changesItems eq 0 j hitem hedited

/-! ## Whole values -/

variable {change : Path × Option (ValueTree S)} {edits : List (Path × Option (ValueTree S))}

theorem ne_nil_of_mem_changesItems (h : change ∈ changesItems eq index before after) :
    change.1 ≠ [] := by
  obtain ⟨path, value⟩ := change
  obtain ⟨_, _, _, _, _, _, rfl, _⟩ := mem_changesItems h
  exact cons_ne_nil _ _

theorem ne_nil_of_mem_changes_document {before after : List (Text × ValueTree S)}
    (h : change ∈ changes eq (document before) (document after)) : change.1 ≠ [] := by
  rw [changes] at h
  split_ifs at h with hsame
  · cases h
  obtain hremoved | hfields := mem_append.mp h
  · obtain ⟨_, _, rfl⟩ := mem_map.mp hremoved
    exact cons_ne_nil _ _
  · clear h hsame
    induction after with
    | nil => cases hfields
    | cons field after ih =>
      rw [changesFields, mem_append] at hfields
      obtain hbehind | hrest := hfields
      · obtain ⟨_, _, rfl⟩ := mem_map.mp hbehind
        exact cons_ne_nil _ _
      · exact ih hrest

/-- Only a whole value is set at the value itself. -/
theorem eq_of_nil_mem_changes {change : Option (ValueTree S)}
    (h : ([], change) ∈ changes eq original edited) :
    change = some edited ∧ changes eq original edited = [([], some edited)] := by
  have hwhole : ∀ value : ValueTree S, ([], change) ∈ [(([] : Path), some value)] →
      change = some value := by
    intro value hmem
    exact (Prod.mk.inj (mem_singleton.mp hmem)).2
  cases edited with
  | leaf a =>
    rw [changes] at h ⊢
    split_ifs at h ⊢
    · cases h
    · exact ⟨hwhole _ h, rfl⟩
  | array after =>
    cases original with
    | array before =>
      rw [changes] at h ⊢
      split_ifs at h ⊢
      · cases h
      · exact absurd rfl (ne_nil_of_mem_changesItems h)
      · exact ⟨hwhole _ h, rfl⟩
    | leaf | document => exact ⟨hwhole _ h, rfl⟩
  | document after =>
    cases original with
    | document before => exact absurd rfl (ne_nil_of_mem_changes_document h)
    | leaf | array => exact ⟨hwhole _ h, rfl⟩

theorem not_same_of_mem_changes (h : change ∈ changes eq original edited) :
    ¬ same eq original edited := by
  intro hsame
  rw [changes_of_same hsame] at h
  cases h

/-- What a change behind a step can be: of a field of two documents, or of an item
of two arrays. -/
theorem changes_cons_cases {name : Text} {rest : Path} {change : Option (ValueTree S)}
    (horiginal : WellFormed original) (hedited : WellFormed edited)
    (h : (name :: rest, change) ∈ changes eq original edited) :
    (∃ before after, original = document before ∧ edited = document after ∧
      (rest, change) ∈ fieldChanges eq (before.lookup name) (after.lookup name)) ∨
    ∃ before after j item value, original = array before ∧ edited = array after ∧
      name = decimal j ∧ j ≤ usizeMax ∧ before[j]? = some item ∧ after[j]? = some value ∧
      (rest, change) ∈ changes eq item value := by
  have hsame := not_same_of_mem_changes h
  cases edited with
  | leaf a =>
    rw [changes, if_neg hsame] at h
    simp at h
  | document after =>
    cases original with
    | leaf | array => simp [changes, same] at h
    | document before =>
      have hunder := mem_under.mpr h
      rw [under_changes_document horiginal.nodup hedited.nodup hsame] at hunder
      exact .inl ⟨before, after, rfl, rfl, hunder⟩
  | array after =>
    cases original with
    | leaf | document => simp [changes, same] at h
    | array before =>
      rw [changes, if_neg hsame] at h
      split_ifs at h
      · obtain ⟨j, _, item, value, hitem, hvalue, heq, hrest⟩ := mem_changesItems h
        rw [Nat.zero_add] at heq
        cases heq
        have hj : j ≤ usizeMax := by
          have := (List.getElem?_eq_some_iff.mp hitem).1
          have := horiginal.length_le
          omega
        exact .inr ⟨before, after, j, item, value, rfl, rfl, rfl, hj, hitem, hvalue, hrest⟩
      · simp at h

/-! ## Paths that do not overlap -/

theorem mem_setsFirst : change ∈ setsFirst edits ↔ change ∈ edits := by
  rw [setsFirst, mem_append, mem_filter, mem_filter, ← and_or_left]
  cases change.2 <;> simp

@[simp] theorem setsFirst_singleton (change : Path × Option (ValueTree S)) :
    setsFirst [change] = [change] := by
  obtain ⟨path, _ | value⟩ := change <;> rfl

/-- **The paths of a patch do not overlap.** -/
theorem pairwise_apart_changes (edited : ValueTree S) :
    ∀ original : ValueTree S, WellFormed original → WellFormed edited →
      (setsFirst (changes eq original edited)).Pairwise fun a b => Apart a.1 b.1 := by
  induction edited using induct with
  | leaf a =>
    intro original _ _
    rw [changes]
    split_ifs
    · exact .nil
    · simp
  | array after ih =>
    intro original horiginal hedited
    cases original with
    | array before =>
      rw [changes]
      split_ifs
      · exact .nil
      · apply pairwise_of_under
        · intro change hmem
          exact ne_nil_of_mem_changesItems (mem_setsFirst.mp hmem)
        · intro name
          rw [under_setsFirst]
          obtain hnone | ⟨j, item, edited, -, hitem, hafter, hunder⟩ :=
            under_changesItems_cases eq before after name
          · rw [hnone]
            exact .nil
          · rw [hunder]
            exact ih edited (mem_of_getElem? hafter) item (horiginal.item hitem)
              (hedited.item hafter)
      · simp
    | leaf | document => simp [changes, same]
  | document after ih =>
    intro original horiginal hedited
    cases original with
    | document before =>
      by_cases hsame : same eq (document before) (document after) = true
      · rw [changes, if_pos hsame]
        exact .nil
      · apply pairwise_of_under
        · intro change hmem
          exact ne_nil_of_mem_changes_document (mem_setsFirst.mp hmem)
        · intro name
          rw [under_setsFirst, under_changes_document horiginal.nodup hedited.nodup hsame]
          cases hbefore : before.lookup name with
          | none => cases after.lookup name <;> simp [fieldChanges, setsFirst]
          | some value =>
            cases hafter : after.lookup name with
            | none => simp [fieldChanges]
            | some edited =>
              exact ih _ (mem_of_lookup hafter) value (horiginal.field hbefore)
                (hedited.field hafter)
    | leaf | array => simp [changes, same]

end Dbflux.DocumentEdit

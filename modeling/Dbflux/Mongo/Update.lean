import Dbflux.Mongo.Bson

/-!
# Saving a document edit

What the server does with an update of `$set` and `$unset`: it splits every key at
its dots, rejects two paths of which one leads through the other, descends by
field name or array index, creates what is missing on the way and refuses to set a
field inside a scalar. A patch of `dbflux_core` is sent as such an update.

A field whose name contains a dot is out of reach of an update, so a patch that
changes one changes something else. A value that is written as the type of what is
stored may be another value then.

Results:
* `updateOne_of_plain`: without a dot in the names of the patch, the server's
  document has what is written for each change in its place.
* `same_of_dotted`: with a dot, a change can only be one of the type of a number.
* `saved_iff`: for every document and every edited document, when the server's
  document is the edited one.
-/

namespace Dbflux.Mongo

open Dbflux.Lib Dbflux.Lib.ValueTree Dbflux.DocumentEdit List
open DocumentPatch (touchedPaths_eq touchedPaths edits)

variable {A : Type}

/-! ## The server -/

/-- `$set` of one path. An index behind the end of an array fills the gap with
nulls. -/
def setField (null value : ValueTree A) : Path → Option (ValueTree A) → Option (ValueTree A)
  | [], _ => some value
  | name :: rest, none => (setField null value rest none).map fun field => document [(name, field)]
  | name :: rest, some (document fields) =>
    (setField null value rest (fields.lookup name)).map fun field =>
      document (put name field fields)
  | name :: rest, some (array items) => do
    let i ← position name
    let item ← setField null value rest items[i]?
    return array (if i < items.length then items.set i item
      else items ++ List.replicate (i - items.length) null ++ [item])
  | _ :: _, some (leaf _) => none

/-- `$unset` of one path: what is not there stays so, and an item becomes a null. -/
def unsetField (null : ValueTree A) : Path → ValueTree A → ValueTree A
  | [], tree => tree
  | name :: rest, document fields =>
    if rest = [] then document (drop name fields)
    else match fields.lookup name with
      | some field => document (put name (unsetField null rest field) fields)
      | none => document fields
  | name :: rest, array items =>
    match position name with
    | none => array items
    | some i =>
      if rest = [] then array (items.set i null)
      else match items[i]? with
        | some item => array (items.set i (unsetField null rest item))
        | none => array items
  | _ :: _, leaf a => leaf a

instance : Std.Symm Apart := ⟨fun _ _ h => ⟨h.2, h.1⟩⟩

instance (p q : Path) : Decidable (Apart p q) := inferInstanceAs (Decidable (_ ∧ _))

/-! ## Where an edit succeeds, the server performs it -/

variable {null tree : ValueTree A} {path place : Path} {name : Text}

variable {result : ValueTree A}

theorem setField_of_edit {value : ValueTree A}
    (h : edit path (some value) (some tree) = some (some result)) :
    setField null value path (some tree) = some result := by
  have hedits := edits_of_edit h
  clear h
  induction hedits with
  | put hchange =>
    cases hchange
    rfl
  | last => rfl
  | field _ hlookup _ ih =>
    rw [setField, hlookup, ih]
    rfl
  | item _ hi hitem _ ih =>
    have hlt := (List.getElem?_eq_some_iff.mp hitem).1
    rw [setField, hi]
    simp only [Option.bind_eq_bind, Option.bind_some, hitem, ih, if_pos hlt]
    rfl

theorem unsetField_of_edit (h : edit path none (some tree) = some (some result)) :
    unsetField null path tree = result := by
  have hedits := edits_of_edit h
  clear h
  induction hedits with
  | put hchange => cases hchange
  | last => rfl
  | field hrest hlookup _ ih => simp [unsetField, hrest, hlookup, ih, store]
  | item hrest hi hitem _ ih => simp [unsetField, hrest rfl, hi, hitem, ih]

/-! ## What the server leaves alone -/

/-- Two trees have the same document at a path, as far as one field goes. -/
def SameField (place : Path) (name : Text) (tree other : ValueTree A) : Prop :=
  ∀ fields, valueAt place tree = some (document fields) →
    ∃ others, valueAt place other = some (document others) ∧ others.lookup name = fields.lookup name

theorem SameField.trans {a b c : ValueTree A} (hab : SameField place name a b)
    (hbc : SameField place name b c) :
    SameField place name a c := by
  intro fields hfields
  obtain ⟨middle, hmiddle, hname⟩ := hab fields hfields
  obtain ⟨others, hothers, hname'⟩ := hbc middle hmiddle
  exact ⟨others, hothers, hname'.trans hname⟩

theorem SameField.refl (place : Path) (name : Text) (tree : ValueTree A) :
    SameField place name tree tree :=
  fun fields hfields => ⟨fields, hfields, rfl⟩

section Level

variable {head : Text} {fields : List (Text × ValueTree A)} {items others : List (ValueTree A)}

/-- A field is put into a document. -/
theorem sameField_put {new : ValueTree A} (hname : name ≠ head)
    (hnew : ∀ rest, place = head :: rest → ∀ field, fields.lookup head = some field →
      SameField rest name field new) :
    SameField place name (document fields) (document (put head new fields)) := by
  cases place with
  | nil =>
    rintro _ ⟨⟩
    exact ⟨_, rfl, by rw [lookup_put, if_neg hname]⟩
  | cons step place =>
    intro found hfound
    obtain ⟨field, hfield, hplace⟩ := Option.bind_eq_some_iff.mp hfound
    by_cases hstep : step = head
    · subst hstep
      obtain ⟨inner, hinner, hsame⟩ := hnew place rfl field hfield found hplace
      exact ⟨inner, by simp [valueAt, lookup_put, hinner], hsame⟩
    · exact ⟨found, by simp [valueAt, lookup_put, hstep, hfield, hplace], rfl⟩

/-- One item of an array changes. -/
theorem sameField_items {j : ℕ} (hj : position head = some j)
    (hothers : ∀ i, i ≠ j → ∀ item, items[i]? = some item → others[i]? = some item)
    (hnew : ∀ rest, place = head :: rest → ∀ item, items[j]? = some item →
      ∃ other, others[j]? = some other ∧ SameField rest name item other) :
    SameField place name (array items) (array others) := by
  cases place with
  | nil => rintro _ ⟨⟩
  | cons step place =>
    intro found hfound
    obtain ⟨i, hi, hrest⟩ := Option.bind_eq_some_iff.mp hfound
    obtain ⟨item, hitem, hplace⟩ := Option.bind_eq_some_iff.mp hrest
    by_cases hstep : step = head
    · subst hstep
      cases hi.symm.trans hj
      obtain ⟨other, hother, hsame⟩ := hnew place rfl item hitem
      obtain ⟨inner, hinner, heq⟩ := hsame found hplace
      exact ⟨inner, by simp [valueAt, hi, hother, hinner], heq⟩
    · have hne : i ≠ j := by
        rintro rfl
        exact hstep ((eq_decimal_of_position hi).trans (eq_decimal_of_position hj).symm)
      exact ⟨found, by simp [valueAt, hi, hothers i hne item hitem, hplace], rfl⟩

end Level

theorem not_prefix_tail {head : Text} {rest place' : Path} (h : ¬ head :: rest <+: place)
    (heq : place = head :: place') : ¬ rest <+: place' :=
  fun hprefix => h (heq ▸ cons_prefix_cons.mpr ⟨rfl, hprefix⟩)

/-- A path that neither ends on the way to a document nor names one of its fields
leaves the field as it is. -/
theorem sameField_setField {value : ValueTree A} (hplace : ¬ path <+: place) (hname : name ∉ path)
    (h : setField null value path (some tree) = some result) :
    SameField place name tree result := by
  induction path generalizing place tree result with
  | nil => exact absurd nil_prefix hplace
  | cons head rest ih =>
    rw [mem_cons, not_or] at hname
    cases tree with
    | leaf a => cases h
    | document fields =>
      obtain ⟨stored, hstored, rfl⟩ := Option.map_eq_some_iff.mp h
      exact sameField_put hname.1 fun place' heq field hfield =>
        ih (not_prefix_tail hplace heq) hname.2 (hfield ▸ hstored)
    | array items =>
      simp only [setField, Option.bind_eq_bind, Option.bind_eq_some_iff] at h
      obtain ⟨j, hj, stored, hstored, hresult⟩ := h
      cases hresult
      refine sameField_items hj (fun i hi item hitem => ?_) fun place' heq item hitem => ?_
      · split_ifs
        · rw [getElem?_set_ne hi.symm, hitem]
        · rw [append_assoc, getElem?_append_left (List.getElem?_eq_some_iff.mp hitem).1, hitem]
      · have hlt := (List.getElem?_eq_some_iff.mp hitem).1
        rw [if_pos hlt, getElem?_set_self hlt]
        exact ⟨stored, rfl, ih (not_prefix_tail hplace heq) hname.2 (hitem ▸ hstored)⟩

theorem sameField_unsetField (tree : ValueTree A) (hplace : ¬ path <+: place) (hname : name ∉ path) :
    SameField place name tree (unsetField null path tree) := by
  induction path generalizing place tree with
  | nil => exact absurd nil_prefix hplace
  | cons head rest ih =>
    rw [mem_cons, not_or] at hname
    cases tree with
    | leaf a => exact .refl _ _ _
    | document fields =>
      simp only [unsetField]
      split_ifs with hnil
      · subst hnil
        cases place with
        | nil =>
          rintro _ ⟨⟩
          exact ⟨_, rfl, by rw [lookup_drop, if_neg hname.1]⟩
        | cons step place =>
          have hstep : step ≠ head := fun heq => hplace ⟨place, by rw [heq]; rfl⟩
          exact fun found hfound => ⟨found, by rwa [valueAt, lookup_drop, if_neg hstep], rfl⟩
      · split
        next stored hstored =>
          refine sameField_put hname.1 fun place' heq field hfield => ?_
          cases hstored.symm.trans hfield
          exact ih _ (not_prefix_tail hplace heq) hname.2
        next => exact .refl _ _ _
    | array items =>
      simp only [unsetField]
      split
      next => exact .refl _ _ _
      next j hj =>
        have hothers : ∀ new i, i ≠ j → ∀ item, items[i]? = some item →
            (items.set j new)[i]? = some item :=
          fun new i hi item hitem => by rw [getElem?_set_ne hi.symm, hitem]
        split_ifs with hnil
        · exact sameField_items hj (hothers _) fun place' heq =>
            absurd (hnil ▸ nil_prefix) (not_prefix_tail hplace heq)
        · split
          next stored hstored =>
            refine sameField_items hj (hothers _) fun place' heq item hitem => ?_
            cases hstored.symm.trans hitem
            exact ⟨_, getElem?_set_self (List.getElem?_eq_some_iff.mp hitem).1,
              ih _ (not_prefix_tail hplace heq) hname.2⟩
          next => exact .refl _ _ _

theorem sameField_foldlM {sets : List (Path × ValueTree A)}
    (h : ∀ entry ∈ sets, ¬ entry.1 <+: place ∧ name ∉ entry.1)
    (hresult : sets.foldlM (fun tree entry => setField null entry.2 entry.1 (some tree)) tree =
      some result) : SameField place name tree result := by
  induction sets generalizing tree with
  | nil =>
    cases hresult
    exact .refl _ _ _
  | cons entry rest ih =>
    rw [forall_mem_cons] at h
    obtain ⟨next, hnext, hrest⟩ := Option.bind_eq_some_iff.mp hresult
    exact (sameField_setField h.1.1 h.1.2 hnext).trans (ih h.2 hrest)

theorem sameField_foldl {paths : List Path} (h : ∀ path ∈ paths, ¬ path <+: place ∧ name ∉ path)
    (tree : ValueTree A) :
    SameField place name tree (paths.foldl (fun tree path => unsetField null path tree) tree) := by
  induction paths generalizing tree with
  | nil => exact .refl _ _ _
  | cons path rest ih =>
    rw [forall_mem_cons] at h
    exact (sameField_unsetField tree h.1.1 h.1.2).trans (ih h.2 _)

section Server

variable {L : Leaves}

/-- The fields under an operator of an update. -/
def operands (update : Fields L) (operator : String) : Fields L :=
  match update.lookup operator.toList with
  | some (document fields) => fields
  | _ => []

/-- A key of an update as a path. -/
def pathOfKey (key : Text) : Path := key.splitOn '.'

/-- `update_one` on the document it matches; `none` is an error of the server. -/
def updateOne (update stored : Fields L) : Option (Bson L) :=
  let sets := (operands update "$set").map fun field => (pathOfKey field.1, field.2)
  let unsets := (operands update "$unset").map fun field => pathOfKey field.1
  if (sets.map Prod.fst ++ unsets).Pairwise Apart then
    (sets.foldlM (fun tree entry => setField (leaf .null) entry.2 entry.1 (some tree))
      (document stored)).map fun tree =>
        unsets.foldl (fun tree path => unsetField (leaf .null) path tree) tree
  else none

/-! ## Keys and paths -/

variable {path : Path} {name : Text} {patch : DocumentPatch (Scalar L.Float)}

theorem pathOfKey_append {place : Path} (h : ∀ segment ∈ place, '.' ∉ segment) (segment : Text)
    (rest : Path) :
    pathOfKey (fieldPathToDotted (place ++ segment :: rest)) =
      place ++ pathOfKey (fieldPathToDotted (segment :: rest)) := by
  induction place with
  | nil => rfl
  | cons first place ih =>
    rw [forall_mem_cons] at h
    have hdotted : fieldPathToDotted (first :: (place ++ segment :: rest)) =
        first ++ '.' :: fieldPathToDotted (place ++ segment :: rest) := by
      cases place <;> simp [fieldPathToDotted, intercalate_cons_cons]
    have hplain : ∀ c ∈ first, (c == '.') = false := by
      intro c hc
      rw [beq_eq_false_iff_ne]
      rintro rfl
      exact h.1 hc
    rw [cons_append, hdotted, pathOfKey, List.splitOn,
      splitOnP_append_cons_of_forall_mem hplain '.' (beq_self_eq_true _), cons_append,
      ← ih h.2]
    rfl

/-- The first segment with a dot. -/
theorem exists_first_dotted (h : ∃ segment ∈ path, '.' ∈ segment) :
    ∃ place segment rest, path = place ++ segment :: rest ∧ '.' ∈ segment ∧
      ∀ other ∈ place, '.' ∉ other := by
  induction path with
  | nil =>
    obtain ⟨_, hmem, -⟩ := h
    cases hmem
  | cons first path ih =>
    by_cases hfirst : '.' ∈ first
    · exact ⟨[], first, path, rfl, hfirst, fun _ hmem => by cases hmem⟩
    · obtain ⟨segment, hmem, hdot⟩ := h
      obtain rfl | hmem := mem_cons.mp hmem
      · exact absurd hdot hfirst
      · obtain ⟨place, segment, rest, rfl, hdot, hplace⟩ := ih ⟨segment, hmem, hdot⟩
        exact ⟨first :: place, segment, rest, rfl, hdot, forall_mem_cons.mpr ⟨hfirst, hplace⟩⟩

/-! ## Saving an edit -/

/-- The patch of an edit of what the server holds. -/
def patchOf (stored : Fields L) (edited : List (Text × Value L)) :
    DocumentPatch (Scalar L.Float) :=
  diff (scalarEq L) (bsonToValue L (document stored)) (document edited)

/-- No name in the paths of a patch contains a dot. -/
def Plain (patch : DocumentPatch (Scalar L.Float)) : Prop :=
  ∀ path ∈ patch.touchedPaths, ∀ segment ∈ path, '.' ∉ segment

/-- The server's document reads as the edited one, up to the types of its numbers. -/
def Saved (update stored : Fields L) (edited : List (Text × Value L)) : Prop :=
  ∃ result, updateOne update stored = some result ∧
    same (sameValue L) (bsonToValue L result) (document edited)

/-- What is written for each change reads as the value it sets. -/
def Exact (stored : Fields L) (patch : DocumentPatch (Scalar L.Float)) : Prop :=
  ∀ entry ∈ patch.set, ∀ bson,
    conformToExisting L entry.2 (bsonAtPath L stored entry.1) = .ok bson →
      same (sameValue L) (bsonToValue L bson) entry.2

variable {stored update : Fields L} {edited : List (Text × Value L)}

theorem edits_patchOf (stored : Fields L) (edited : List (Text × Value L)) :
    (patchOf stored edited).edits =
      setsFirst (changes (scalarEq L) ((document stored).map (readScalar L)) (document edited)) := by
  rw [patchOf, bsonToValue, ValueTree.map, diff_eq, DocumentPatch.edits_extend_empty]

theorem ne_nil_of_mem_edits {change : Path × Option (Value L)}
    (h : change ∈ (patchOf stored edited).edits) : change.1 ≠ [] := by
  rw [edits_patchOf, mem_setsFirst] at h
  exact ne_nil_of_mem_changes_document h

variable (hstored : WellFormed (document stored)) (hedited : WellFormed (document edited))
include hstored hedited

variable {change : Option (Value L)}

theorem bsonAtPath_eq_valueAt (h : (path, change) ∈ (patchOf stored edited).edits) :
    bsonAtPath L stored path = valueAt path (document stored) := by
  obtain ⟨name, rest, rfl⟩ := exists_cons_of_ne_nil (ne_nil_of_mem_edits h)
  rw [edits_patchOf, mem_setsFirst] at h
  rw [← bsonBehind_eq_valueAt hstored hedited h]
  rfl

theorem pairwise_apart_touchedPaths : (patchOf stored edited).touchedPaths.Pairwise Apart := by
  rw [touchedPaths_eq, pairwise_map, edits_patchOf]
  exact pairwise_apart_changes _ _ (hstored.map _) hedited

omit hstored hedited in
/-- The operands of an update that a patch was made into. -/
theorem operands_of_patch (h : patchUpdateDocument L patch (some stored) = .ok update) :
    operands update "$set" = putAll (patch.set.map fun entry =>
        (fieldPathToDotted entry.1, write L entry.2 (bsonAtPath L stored entry.1))) [] ∧
      operands update "$unset" =
        putAll (patch.unset.map fun path => (fieldPathToDotted path, leaf (.string []))) [] := by
  obtain ⟨rfl, -⟩ := patchUpdateDocument_eq h
  have hne : "$set".toList ≠ "$unset".toList := by decide
  unfold operands
  generalize "$set".toList = set at hne ⊢
  generalize "$unset".toList = unset at hne ⊢
  cases patch.set with
  | nil =>
    cases patch.unset with
    | nil => exact ⟨rfl, rfl⟩
    | cons path rest => simp [lookup_cons_of_ne hne, putAll]
  | cons entry sets =>
    cases patch.unset with
    | nil => simp [lookup_cons_of_ne hne.symm, putAll]
    | cons path rest => simp [lookup_cons_of_ne hne.symm]

variable (hupdate : patchUpdateDocument L (patchOf stored edited) (some stored) = .ok update)
  (hplain : Plain (patchOf stored edited))
include hupdate hplain

/-- The paths of a plain patch arrive at the server as they are. -/
theorem paths_of_plain :
    (operands update "$set").map (fun field => (pathOfKey field.1, field.2)) =
        ((patchOf stored edited).set.map fun entry =>
          (entry.1, write L entry.2 (valueAt entry.1 (document stored)))) ∧
      (operands update "$unset").map (fun field => pathOfKey field.1) =
        (patchOf stored edited).unset := by
  obtain ⟨hset, hunset⟩ := operands_of_patch hupdate
  have hpath : ∀ path ∈ (patchOf stored edited).touchedPaths,
      pathOfKey (fieldPathToDotted path) = path := by
    intro path hmem
    apply splitOn_intercalate '.' (hplain path hmem)
    rw [touchedPaths_eq] at hmem
    obtain ⟨change, hchange, rfl⟩ := mem_map.mp hmem
    exact ne_nil_of_mem_edits hchange
  -- the keys of different paths without dots are different
  have hnodup : ((patchOf stored edited).touchedPaths.map fieldPathToDotted).Nodup := by
    rw [List.Nodup, pairwise_map]
    apply (pairwise_apart_touchedPaths hstored hedited).imp_of_mem
    intro p q hp hq hpq heq
    have hsame : p = q := by rw [← hpath p hp, heq, hpath q hq]
    exact hpq.1 (hsame ▸ prefix_refl p)
  rw [touchedPaths, map_append, nodup_append] at hnodup
  rw [touchedPaths, forall_mem_append] at hpath
  constructor
  · rw [hset, putAll_of_nodup, nil_append, map_map]
    · apply map_congr_left
      intro entry hmem
      have hplace := bsonAtPath_eq_valueAt hstored hedited
        (mem_append_left _ (mem_map.mpr ⟨entry, hmem, rfl⟩))
      simp [hpath.1 _ (mem_map_of_mem hmem), hplace]
    · simpa [Function.comp_def] using hnodup.1
  · rw [hunset, putAll_of_nodup, nil_append, map_map]
    · exact (map_congr_left hpath.2).trans (map_id' _)
    · simpa [Function.comp_def] using hnodup.2.1

/-- **Without a dot** in the names of its patch the server performs it: everything that
is written has the given property. -/
theorem updateOne_of_plain {P : Value L → Option (Bson L) → Bson L → Prop}
    (hwritten : ∀ entry ∈ (patchOf stored edited).set, P entry.2 (bsonAtPath L stored entry.1)
      (write L entry.2 (bsonAtPath L stored entry.1))) :
    ∃ result, updateOne update stored = some result ∧
      Holds (scalarEq L) (readScalar L) P (some (document stored)) result (document edited) := by
  obtain ⟨hsets, hunsets⟩ := paths_of_plain hstored hedited hupdate hplain
  have hapart := pairwise_apart_touchedPaths hstored hedited
  have hperformed : Performed (scalarEq L) (readScalar L) (write L) P (document stored)
      (document edited) := editAll_changes _ _ hstored hedited
  obtain ⟨result, hresult, hholds⟩ := hperformed (by
    intro path value hmem
    rw [← mem_setsFirst, ← edits_patchOf] at hmem
    have hentry : (path, value) ∈ (patchOf stored edited).set := by
      simpa [edits] using hmem
    rw [← bsonAtPath_eq_valueAt hstored hedited hmem]
    exact hwritten _ hentry)
  refine ⟨result, ?_, hholds⟩
  -- the converted changes are the operands of the update
  have hconvert : convert (write L) (some (document stored)) (patchOf stored edited).edits =
      ((patchOf stored edited).set.map fun entry =>
          (entry.1, write L entry.2 (valueAt entry.1 (document stored)))).map
        (fun entry => (entry.1, some entry.2)) ++
      (patchOf stored edited).unset.map fun path => (path, none) := by
    simp only [convert, edits, map_append, map_map]
    rfl
  rw [← convert_setsFirst, ← edits_patchOf, hconvert, editAll, foldlM_append] at hresult
  obtain ⟨middle, hmiddle, hrest⟩ := Option.bind_eq_some_iff.mp hresult
  obtain ⟨next, rfl, hnext⟩ := foldlM_of_editAll
    (fun tree entry => setField (leaf .null) entry.2 entry.1 (some tree)) (by simp)
    (fun entry tree next hedit => setField_of_edit hedit) hmiddle
  have hunset : ∀ path ∈ (patchOf stored edited).unset, path ≠ [] := fun path hmem =>
    ne_nil_of_mem_edits (mem_append_right _ (mem_map.mpr ⟨_, hmem, rfl⟩))
  have htouched : (((patchOf stored edited).set.map fun entry =>
      (entry.1, write L entry.2 (valueAt entry.1 (document stored)))).map Prod.fst ++
        (patchOf stored edited).unset).Pairwise Apart := by
    rw [map_map]
    exact hapart
  unfold updateOne
  simp only [hsets, hunsets]
  rw [if_pos htouched, hnext]
  obtain ⟨last, hlast, hremoved⟩ := foldlM_of_editAll
    (fun tree path => pure (unsetField (leaf .null) path tree)) (by simpa using hunset)
    (fun path tree next hedit => congrArg some (unsetField_of_edit hedit)) hrest
  rw [foldlM_pure] at hremoved
  exact hremoved.trans hlast.symm

omit hstored hedited hupdate hplain

/-- The paths of an update. -/
def serverPaths (update : Fields L) : List Path :=
  (operands update "$set").map (fun field => pathOfKey field.1) ++
    (operands update "$unset").map fun field => pathOfKey field.1

/-- An update that is accepted has paths that are apart, and leaves a field alone
when none of them ends above it or names it. -/
theorem sameField_updateOne {result : Bson L} (h : updateOne update stored = some result)
    {place : Path} (hpaths : ∀ path ∈ serverPaths update, ¬ path <+: place ∧ name ∉ path) :
    SameField place name (document stored) result := by
  unfold updateOne at h
  dsimp only at h
  split_ifs at h
  obtain ⟨middle, hmiddle, rfl⟩ := Option.map_eq_some_iff.mp h
  rw [serverPaths, forall_mem_append] at hpaths
  have hsets : ∀ entry ∈ (operands update "$set").map fun field => (pathOfKey field.1, field.2),
      ¬ entry.1 <+: place ∧ name ∉ entry.1 := by
    intro entry hmem
    obtain ⟨field, hfield, rfl⟩ := mem_map.mp hmem
    exact hpaths.1 _ (mem_map.mpr ⟨field, hfield, rfl⟩)
  exact (sameField_foldlM hsets hmiddle).trans (sameField_foldl hpaths.2 middle)

theorem mem_serverPaths (h : patchUpdateDocument L patch (some stored) = .ok update)
    (hpath : path ∈ patch.touchedPaths) :
    pathOfKey (fieldPathToDotted path) ∈ serverPaths update := by
  have hkey : ∀ {fields : Fields L}, fieldPathToDotted path ∈ fields.map Prod.fst →
      pathOfKey (fieldPathToDotted path) ∈ fields.map fun field => pathOfKey field.1 := by
    intro fields hmem
    obtain ⟨field, hfield, heq⟩ := mem_map.mp hmem
    exact mem_map.mpr ⟨field, hfield, by rw [heq]⟩
  obtain ⟨hset, hunset⟩ := operands_of_patch h
  rw [serverPaths, mem_append]
  obtain hmem | hmem := mem_append.mp hpath
  · left
    apply hkey
    rw [hset, names_putAll, map_map]
    obtain ⟨entry, hentry, rfl⟩ := mem_map.mp hmem
    exact .inl (mem_map.mpr ⟨entry, hentry, rfl⟩)
  · right
    apply hkey
    rw [hunset, names_putAll, map_map]
    exact .inl (mem_map.mpr ⟨path, hmem, rfl⟩)

theorem position_of_dot (h : '.' ∈ name) : position name = none := by
  cases hposition : position name with
  | none => rfl
  | some i =>
    rw [eq_decimal_of_position hposition] at h
    exact absurd (isAsciiDigit_of_mem_decimal h) (by decide)

/-- **With a dot** in its path, a change of an edit that is saved is one of the type of a
number at most. -/
theorem same_of_dotted (hstored : WellFormed (document stored))
    (hedited : WellFormed (document edited))
    (hupdate : patchUpdateDocument L (patchOf stored edited) (some stored) = .ok update)
    (hsaved : Saved update stored edited) (hmem : (path, change) ∈ (patchOf stored edited).edits)
    (hdot : ∃ segment ∈ path, '.' ∈ segment) :
    ∃ value bson, change = some value ∧ bsonAtPath L stored path = some bson ∧
      same (sameValue L) (bsonToValue L bson) value := by
  obtain ⟨result, hresult, hsame⟩ := hsaved
  rw [bsonAtPath_eq_valueAt hstored hedited hmem]
  have htouched : path ∈ (patchOf stored edited).touchedPaths := by
    rw [touchedPaths_eq]
    exact mem_map.mpr ⟨_, hmem, rfl⟩
  rw [edits_patchOf, mem_setsFirst] at hmem
  obtain ⟨place, segment, rest, rfl, hsegment, hplace⟩ := exists_first_dotted hdot
  have hserver := mem_serverPaths hupdate htouched
  rw [pathOfKey_append hplace] at hserver
  -- a path that ends above the field ends above the path of the change, too
  have hpaths : ∀ other ∈ serverPaths update, ¬ other <+: place ∧ segment ∉ other := by
    intro other hother
    constructor
    · intro habove
      have hne : other ≠ place ++ pathOfKey (fieldPathToDotted (segment :: rest)) := by
        rintro rfl
        have hlength := habove.length_le
        rw [length_append] at hlength
        exact splitOn_ne_nil _ _ (length_eq_zero_iff.mp
          (show (pathOfKey (fieldPathToDotted (segment :: rest))).length = 0 by omega))
      unfold updateOne at hresult
      dsimp only at hresult
      split_ifs at hresult with hapart
      rw [map_map] at hapart
      exact (hapart.forall hother hserver hne).1 (habove.trans (prefix_append _ _))
    · intro hname
      have hkey : ∃ key, other = pathOfKey key := by
        rw [serverPaths, mem_append] at hother
        obtain hother | hother := hother
        all_goals
          obtain ⟨field, -, rfl⟩ := mem_map.mp hother
          exact ⟨field.1, rfl⟩
      obtain ⟨key, rfl⟩ := hkey
      exact not_mem_of_mem_splitOn hname hsegment
  obtain ⟨fields, hfields⟩ :=
    document_of_mem_changes (position_of_dot hsegment) hstored hedited hmem
  obtain ⟨others, hothers, hname⟩ := sameField_updateOne hresult hpaths fields hfields
  have hkept : valueAt (place ++ segment :: rest) result =
      valueAt (place ++ segment :: rest) (document stored) := by
    rw [valueAt_append, valueAt_append, hfields, hothers, Option.bind_some, Option.bind_some,
      valueAt, valueAt, hname]
  obtain ⟨hset, hunset⟩ := valueAt_of_holds (fieldWise_same (sameValue L) (readScalar L)) _ _ result
    _ change hstored hedited hmem (.written ⟨hedited, hsame⟩)
  rw [hkept] at hset hunset
  cases change with
  | none => exact absurd (hunset rfl).1 (hunset rfl).2
  | some value =>
    obtain ⟨tree, htree, -, hvalue⟩ := hset value rfl
    exact ⟨value, tree, rfl, htree, hvalue⟩

/-- Two leaves that are the same, or equal in the sense of `PartialEq`. -/
def scalarSame (L : Leaves) (a b : Scalar L.Float) : Bool := a = b || scalarEq L a b

theorem scalarEq_sameValue (a b : Scalar L.Float) (h : scalarEq L a b = true) :
    sameValue L a b = true := by
  simp [sameValue, h]

/-- A plain patch saves its edit exactly if every value is written as itself. -/
theorem saved_iff_exact (hstored : WellFormed (document stored))
    (hedited : WellFormed (document edited))
    (hupdate : patchUpdateDocument L (patchOf stored edited) (some stored) = .ok update)
    (hplain : Plain (patchOf stored edited)) :
    Saved update stored edited ↔ Exact stored (patchOf stored edited) := by
  obtain ⟨-, hwritten⟩ := patchUpdateDocument_eq hupdate
  constructor
  · rintro ⟨result, hresult, hsame⟩ entry hentry bson hbson
    obtain ⟨result', hresult', hholds⟩ :=
      updateOne_of_plain hstored hedited hupdate hplain hwritten
    cases hresult.symm.trans hresult'
    have hmem : (entry.1, some entry.2) ∈ (patchOf stored edited).edits :=
      mem_append_left _ (mem_map.mpr ⟨entry, hentry, rfl⟩)
    rw [bsonAtPath_eq_valueAt hstored hedited hmem] at hbson
    rw [edits_patchOf, mem_setsFirst] at hmem
    -- what was written for the value stands in its place, and so does the value
    obtain ⟨tree, htree, hconformed⟩ := (valueAt_of_holds conformToExisting_fieldWise _ _ result _ _
      hstored hedited hmem hholds).1 _ rfl
    obtain ⟨tree', htree', -, hvalue⟩ := (valueAt_of_holds
      (fieldWise_same (sameValue L) (readScalar L)) _ _ result _ _ hstored hedited hmem
      (.written ⟨hedited, hsame⟩)).1 _ rfl
    cases htree.symm.trans htree'
    cases hconformed.symm.trans hbson
    exact hvalue
  · intro hexact
    obtain ⟨result, hresult, hholds⟩ := updateOne_of_plain hstored hedited hupdate hplain
      (P := fun value _ tree => same (sameValue L) (bsonToValue L tree) value)
      fun entry hentry => hexact entry hentry _ (hwritten entry hentry)
    exact ⟨result, hresult, same_of_holds scalarEq_sameValue (fun _ h => h) hholds hedited⟩

/-- **Saving a document edit.** The patch between what the server holds and the
edited document turns one into the other and has no overlapping paths. Its update
saves the edit, other than by finding everything under dotted names as it should
be up to the types of numbers, exactly when no name in its paths contains a dot and
every value it sets is written as itself. -/
theorem saved_iff (hstored : WellFormed (document stored)) (hedited : WellFormed (document edited))
    (hupdate : patchUpdateDocument L (patchOf stored edited) (some stored) = .ok update) :
    same (scalarSame L) ((patchOf stored edited).applyTo (bsonToValue L (document stored)))
        (document edited) ∧
      ((patchOf stored edited).touchedPaths.Pairwise fun p q => fieldPathsOverlap p q = false) ∧
      ((Saved update stored edited ∧ ∀ entry ∈ (patchOf stored edited).set,
          (∃ segment ∈ entry.1, '.' ∈ segment) → ∀ bson, bsonAtPath L stored entry.1 = some bson →
            ¬ same (sameValue L) (bsonToValue L bson) entry.2) ↔
        Plain (patchOf stored edited) ∧ Exact stored (patchOf stored edited)) := by
  refine ⟨?_, ?_, ?_, ?_⟩
  · have hextends : Extends (scalarEq L) (scalarSame L) :=
      ⟨fun a => by simp [scalarSame], fun a b h => by simp [scalarSame, h]⟩
    have hvalue := hstored.map (readScalar L)
    exact applyTo_diff hextends hvalue hedited
  · apply (pairwise_apart_touchedPaths hstored hedited).imp
    intro p q h
    exact (not_fieldPathsOverlap_iff p q).mpr h
  · rintro ⟨hsaved, heffect⟩
    have hplain : Plain (patchOf stored edited) := by
      intro path hpath segment hsegment hdot
      rw [touchedPaths_eq] at hpath
      obtain ⟨⟨changed, change⟩, hmem, rfl⟩ := mem_map.mp hpath
      obtain ⟨value, bson, rfl, hbson, hsame⟩ :=
        same_of_dotted hstored hedited hupdate hsaved hmem ⟨segment, hsegment, hdot⟩
      have hentry : (changed, value) ∈ (patchOf stored edited).set := by
        simpa [edits] using hmem
      exact heffect _ hentry ⟨segment, hsegment, hdot⟩ bson hbson hsame
    exact ⟨hplain, (saved_iff_exact hstored hedited hupdate hplain).mp hsaved⟩
  · rintro ⟨hplain, hexact⟩
    refine ⟨(saved_iff_exact hstored hedited hupdate hplain).mpr hexact, ?_⟩
    rintro entry hentry ⟨segment, hsegment, hdot⟩
    exact absurd hdot (hplain entry.1 (mem_append_left _ (mem_map_of_mem hentry)) segment hsegment)

end Server

/-- Leaves with whole numbers as floats and texts as decimals. A float that is no `i64`
is cast to the nearest one. -/
def plainLeaves : Leaves where
  Float := ℤ
  Decimal := Text
  floatEq a b := a == b
  floatOfInt := id
  floatToInt f := max (-2 ^ 63) (min (2 ^ 63 - 1) f)
  isWhole _ := true
  displayFloat := displayInt
  parseFloat := parseI64
  displayDecimal := id
  parseDecimal := .ok
  parseObjectId := .ok
  displayTime := displayInt
  isInstant _ := true
  displayMilliseconds := displayInt
  parseJson text := .ok (leaf (.text text))
  floatNumber f := some f
  decimalNumber _ := none

/-- A nested field is changed, one is added and one removed. -/
theorem edit_of_a_nested_field :
    let stored : Fields plainLeaves :=
      [(['a'], document [(['b'], leaf (.int64 1)), (['c'], leaf .null)]), (['x'], leaf .null)]
    let edited : List (Text × Value plainLeaves) :=
      [(['a'], document [(['b'], leaf (.int 2)), (['d'], leaf (.bool true))]), (['x'], leaf .null)]
    ∃ update, patchUpdateDocument plainLeaves (patchOf stored edited) (some stored) = .ok update ∧
      Saved update stored edited := by
  intro stored edited
  have hwell {α : Type} {a b c : α} {name : Text} (hname : ['b'] ≠ name) : WellFormed (document
      [(['a'], document [(['b'], leaf a), (name, leaf b)]), (['x'], leaf c)]) := by
    refine .document (by simp) ?_
    simp only [forall_mem_cons]
    refine ⟨.document (by simpa using hname) ?_, .leaf _, fun _ h => by cases h⟩
    simp only [forall_mem_cons]
    exact ⟨.leaf _, .leaf _, fun _ h => by cases h⟩
  have hstored : WellFormed (document stored) := hwell (by decide)
  have hedited : WellFormed (document edited) := hwell (by decide)
  have hupdate : patchUpdateDocument plainLeaves (patchOf stored edited) (some stored) =
      .ok [("$set".toList, document [(['a', '.', 'b'], leaf (.int64 2)),
          (['a', '.', 'd'], leaf (.boolean true))]),
        ("$unset".toList, document [(['a', '.', 'c'], leaf (.string []))])] := by
    rfl
  refine ⟨_, hupdate, ((saved_iff hstored hedited hupdate).2.2.mpr ⟨?_, ?_⟩).1⟩
  · have htouched : (patchOf stored edited).touchedPaths =
        [[['a'], ['b']], [['a'], ['d']], [['a'], ['c']]] := by
      decide +kernel
    rw [Plain, htouched]
    decide
  · intro entry hentry bson hbson
    have hset : (patchOf stored edited).set =
        [([['a'], ['b']], leaf (.int 2)), ([['a'], ['d']], leaf (.bool true))] := rfl
    rw [hset, mem_cons, mem_singleton] at hentry
    obtain rfl | rfl := hentry <;> (cases hbson; rfl)

/-- A field named `a.b` is changed, and the update makes another field. A number that is
no `i64` is set where one is stored, and the greatest one is stored then. -/
theorem edit_of_a_dotted_field :
    (∃ update, patchUpdateDocument plainLeaves
        (patchOf [(['a', '.', 'b'], leaf (.int32 1))] [(['a', '.', 'b'], leaf (.int 2))])
        (some [(['a', '.', 'b'], leaf (.int32 1))]) = .ok update ∧
      updateOne update [(['a', '.', 'b'], leaf (.int32 1))] =
        some (document [(['a', '.', 'b'], leaf (.int32 1)),
          (['a'], document [(['b'], leaf (.int32 2))])]) ∧
      ¬ Saved update [(['a', '.', 'b'], leaf (.int32 1))] [(['a', '.', 'b'], leaf (.int 2))]) ∧
    ∃ update, patchUpdateDocument plainLeaves
        (patchOf [(['a'], leaf (.int64 5))] [(['a'], leaf (.float (10 ^ 150 * 10 ^ 150 : ℤ)))])
        (some [(['a'], leaf (.int64 5))]) = .ok update ∧
      updateOne update [(['a'], leaf (.int64 5))] =
        some (document [(['a'], leaf (.int64 9223372036854775807))]) ∧
      ¬ Saved update [(['a'], leaf (.int64 5))] [(['a'], leaf (.float (10 ^ 150 * 10 ^ 150 : ℤ)))] := by
  refine ⟨⟨_, rfl, rfl, ?_⟩, _, rfl, rfl, ?_⟩
  · rintro ⟨result, hsaved, hsame⟩
    cases (show updateOne _ _ = some (document [(['a', '.', 'b'], leaf (.int32 1)),
      (['a'], document [(['b'], leaf (.int32 2))])]) from rfl).symm.trans hsaved
    exact absurd hsame (by decide +kernel)
  · rintro ⟨result, hsaved, hsame⟩
    cases (show updateOne _ _ = some (document [(['a'], leaf (.int64 9223372036854775807))])
      from rfl).symm.trans hsaved
    exact absurd hsame (by decide +kernel)

end Dbflux.Mongo

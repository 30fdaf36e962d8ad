import Dbflux.Lib.Numeral

/-!
# Trees of documents and arrays

Values made of documents (fields with distinct names), arrays and leaves, with
paths into them: a step of a path is the name of a field or the numeral of an
item. An edit puts a value at a path or takes it away, and fails when the path
does not lead there.

Results:
* `induct`: the induction over trees.
* `editAll_document`, `editAll_array`: a list of edits acts on every field and on
  every item by those edits alone that lead there.
* `pairwise_of_under`: paths are apart when they are apart under every step.
-/

namespace Dbflux.Lib

open List

inductive ValueTree (A : Type)
  | leaf (a : A)
  | array (items : List (ValueTree A))
  | document (fields : List (Text × ValueTree A))

namespace ValueTree

variable {A B V C : Type}

theorem induct {motive : ValueTree A → Prop} (leaf : ∀ a, motive (leaf a))
    (array : ∀ items, (∀ item ∈ items, motive item) → motive (array items))
    (document : ∀ fields, (∀ field ∈ fields, motive field.2) → motive (document fields))
    (tree : ValueTree A) : motive tree := by
  refine @ValueTree.rec A motive (fun items => ∀ item ∈ items, motive item)
    (fun fields => ∀ field ∈ fields, motive field.2) (fun field => motive field.2)
    leaf array document ?_ ?_ ?_ ?_ ?_ tree
  · simp
  · intro item rest hitem hrest
    exact forall_mem_cons.mpr ⟨hitem, hrest⟩
  · simp
  · intro field rest hfield hrest
    exact forall_mem_cons.mpr ⟨hfield, hrest⟩
  · intro name value hvalue
    exact hvalue

/-! ## Fields -/

/-- Put a value at its name, or behind the other fields. -/
def put (name : Text) (value : V) : List (Text × V) → List (Text × V)
  | [] => [(name, value)]
  | field :: rest => if field.1 = name then (name, value) :: rest else field :: put name value rest

/-- Take a field away. -/
def drop (name : Text) (fields : List (Text × V)) : List (Text × V) :=
  fields.filter fun field => field.1 ≠ name

/-- What a field is to be: a value, or absent. -/
def store (name : Text) : Option V → List (Text × V) → List (Text × V)
  | some value, fields => put name value fields
  | none, fields => drop name fields

variable {name : Text} {items : List (ValueTree A)} {tree : ValueTree A} {eq : A → A → Bool}

section Fields

variable {fields : List (Text × V)} {value : V}

theorem lookup_cons_of_ne {other : Text} (h : other ≠ name) (value : V) (fields : List (Text × V)) :
    ((name, value) :: fields).lookup other = fields.lookup other := by
  rw [lookup_cons, beq_false_of_ne h]

theorem lookup_cons_eq (name other : Text) (value : V) (fields : List (Text × V)) :
    ((name, value) :: fields).lookup other =
      if other = name then some value else fields.lookup other := by
  split_ifs with h
  · rw [h, lookup_cons_self]
  · exact lookup_cons_of_ne h value fields

theorem lookup_put (name other : Text) (value : V) (fields : List (Text × V)) :
    (put name value fields).lookup other = if other = name then some value else fields.lookup other := by
  induction fields with
  | nil => exact lookup_cons_eq ..
  | cons field rest ih =>
    unfold put
    split_ifs <;> grind [lookup_cons_eq]

theorem names_put (name : Text) (value : V) (fields : List (Text × V)) (other : Text) :
    other ∈ (put name value fields).map Prod.fst ↔ other = name ∨ other ∈ fields.map Prod.fst := by
  induction fields with
  | nil => simp [put]
  | cons field rest ih =>
    unfold put
    split_ifs with hfield
    · rw [map_cons, map_cons, mem_cons, mem_cons, hfield]
      tauto
    · rw [map_cons, map_cons, mem_cons, mem_cons, ih]
      tauto

theorem put_of_not_mem (h : name ∉ fields.map Prod.fst) (value : V) :
    put name value fields = fields ++ [(name, value)] := by
  induction fields with
  | nil => rfl
  | cons field rest ih =>
    rw [map_cons, mem_cons, not_or] at h
    rw [put, if_neg (Ne.symm h.1), ih h.2, cons_append]

/-- Fields put one after the other. -/
def putAll (entries fields : List (Text × V)) : List (Text × V) :=
  entries.foldl (fun fields entry => put entry.1 entry.2 fields) fields

theorem names_putAll (entries fields : List (Text × V)) (name : Text) :
    name ∈ (putAll entries fields).map Prod.fst ↔
      name ∈ entries.map Prod.fst ∨ name ∈ fields.map Prod.fst := by
  induction entries generalizing fields with
  | nil => simp [putAll]
  | cons entry rest ih =>
    rw [putAll, foldl_cons, ← putAll, ih, names_put, map_cons, mem_cons]
    tauto

theorem putAll_of_nodup {entries : List (Text × V)}
    (h : ((fields ++ entries).map Prod.fst).Nodup) : putAll entries fields = fields ++ entries := by
  induction entries generalizing fields with
  | nil => simp [putAll]
  | cons entry rest ih =>
    have hnew : entry.1 ∉ fields.map Prod.fst := by
      rw [map_append, map_cons, nodup_append] at h
      intro hmem
      exact h.2.2 _ hmem _ mem_cons_self rfl
    rw [putAll, foldl_cons, ← putAll, put_of_not_mem hnew, ih]
    · simp
    · simpa using h

theorem lookup_drop (name other : Text) (fields : List (Text × V)) :
    (drop name fields).lookup other = if other = name then none else fields.lookup other := by
  unfold drop
  induction fields with
  | nil => simp
  | cons field rest ih =>
    split_ifs <;> grind [lookup_cons_eq]

theorem lookup_store (name other : Text) (field : Option V) (fields : List (Text × V)) :
    (store name field fields).lookup other = if other = name then field else fields.lookup other := by
  cases field with
  | some value => exact lookup_put name other value fields
  | none => exact lookup_drop name other fields

theorem isSome_lookup_of_mem (h : (name, value) ∈ fields) : (fields.lookup name).isSome :=
  lookup_isSome_iff.mpr ⟨_, h, beq_self_eq_true name⟩

theorem lookup_eq_some_of_mem (h : (fields.map Prod.fst).Nodup) (hmem : (name, value) ∈ fields) :
    fields.lookup name = some value := by
  obtain ⟨found, hfound⟩ := Option.isSome_iff_exists.mp (isSome_lookup_of_mem hmem)
  cases inj_on_of_nodup_map h hmem (mem_of_lookup hfound) rfl
  exact hfound

theorem lookup_eq_none_of_not_mem (h : name ∉ fields.map Prod.fst) :
    fields.lookup name = none := by
  rw [lookup_eq_none_iff]
  rintro ⟨other, value⟩ hfield
  rw [bne_iff_ne]
  rintro rfl
  exact h (mem_map_of_mem hfield)

theorem lookup_map (f : V → C) (fields : List (Text × V)) (name : Text) :
    (fields.map fun field => (field.1, f field.2)).lookup name = (fields.lookup name).map f := by
  induction fields with
  | nil => rfl
  | cons field rest ih =>
    obtain ⟨k, v⟩ := field
    rw [map_cons, lookup_cons, lookup_cons, ih]
    cases name == k <;> rfl

end Fields

/-! ## Leaves -/

mutual

/-- Another leaf in the place of every leaf. -/
def map (f : A → B) : ValueTree A → ValueTree B
  | leaf a => leaf (f a)
  | array items => array (mapItems f items)
  | document fields => document (mapFields f fields)

def mapItems (f : A → B) : List (ValueTree A) → List (ValueTree B)
  | [] => []
  | item :: rest => map f item :: mapItems f rest

def mapFields (f : A → B) : List (Text × ValueTree A) → List (Text × ValueTree B)
  | [] => []
  | (name, value) :: rest => (name, map f value) :: mapFields f rest

end

variable (f : A → B)

theorem mapItems_eq (items : List (ValueTree A)) : mapItems f items = items.map (map f) := by
  induction items with
  | nil => rfl
  | cons item rest ih => rw [mapItems, ih, map_cons]

theorem mapFields_eq (fields : List (Text × ValueTree A)) :
    mapFields f fields = fields.map fun field => (field.1, map f field.2) := by
  induction fields with
  | nil => rfl
  | cons field rest ih => rw [mapFields, ih, map_cons]

theorem lookup_mapFields (fields : List (Text × ValueTree A)) (name : Text) :
    (mapFields f fields).lookup name = (fields.lookup name).map (map f) := by
  rw [mapFields_eq, lookup_map]

theorem names_mapFields (fields : List (Text × ValueTree A)) :
    (mapFields f fields).map Prod.fst = fields.map Prod.fst := by
  rw [mapFields_eq, map_map]
  rfl

theorem getElem?_mapItems (items : List (ValueTree A)) (i : ℕ) :
    (mapItems f items)[i]? = items[i]?.map (map f) := by
  rw [mapItems_eq, getElem?_map]

theorem map_id (tree : ValueTree A) : map id tree = tree := by
  induction tree using induct with
  | leaf a => rfl
  | array items ih => rw [map, mapItems_eq, map_congr_left ih, map_id']
  | document fields ih =>
    have hfields : ∀ field ∈ fields, (field.1, map id field.2) = field := by
      intro field hmem
      rw [ih field hmem]
    rw [map, mapFields_eq, map_congr_left hfields, map_id']

mutual

/-- The same fields and items, with leaves that are the same. -/
def same (eq : A → A → Bool) : ValueTree A → ValueTree A → Bool
  | leaf a, leaf b => eq a b
  | array items, array others => sameItems eq items others
  | document fields, document others =>
    sameFields eq fields others && fields.all fun field => (others.lookup field.1).isSome
  | _, _ => false

def sameItems (eq : A → A → Bool) : List (ValueTree A) → List (ValueTree A) → Bool
  | [], [] => true
  | item :: rest, other :: others => same eq item other && sameItems eq rest others
  | _, _ => false

def sameFields (eq : A → A → Bool) (fields : List (Text × ValueTree A)) :
    List (Text × ValueTree A) → Bool
  | [] => true
  | (name, other) :: others =>
    (match fields.lookup name with
      | some value => same eq value other
      | none => false) && sameFields eq fields others

end

/-! ## Well-formed trees -/

/-- Fields have distinct names, and an array's items are counted by a `usize`. -/
inductive WellFormed : ValueTree A → Prop
  | leaf (a : A) : WellFormed (leaf a)
  | array {items : List (ValueTree A)} (hlength : items.length ≤ usizeMax)
      (hitems : ∀ item ∈ items, WellFormed item) : WellFormed (array items)
  | document {fields : List (Text × ValueTree A)} (hnames : (fields.map Prod.fst).Nodup)
      (hfields : ∀ field ∈ fields, WellFormed field.2) : WellFormed (document fields)

theorem WellFormed.nodup {fields : List (Text × ValueTree A)} (h : WellFormed (.document fields)) :
    (fields.map Prod.fst).Nodup := by
  cases h
  assumption

theorem WellFormed.field {fields : List (Text × ValueTree A)} (h : WellFormed (.document fields))
    {value : ValueTree A} (hfield : fields.lookup name = some value) :
    WellFormed value := by
  cases h with
  | document _ hfields => exact hfields _ (mem_of_lookup hfield)

theorem WellFormed.length_le (h : WellFormed (.array items)) : items.length ≤ usizeMax := by
  cases h
  assumption

theorem WellFormed.item (h : WellFormed (.array items)) {i : ℕ} {item : ValueTree A}
    (hitem : items[i]? = some item) : WellFormed item := by
  cases h with
  | array _ hitems => exact hitems item (mem_of_getElem? hitem)

theorem WellFormed.map (h : WellFormed tree) (f : A → B) : WellFormed (tree.map f) := by
  induction h with
  | leaf a => exact .leaf (f a)
  | array hlength _ ih =>
    rw [ValueTree.map, mapItems_eq]
    refine .array (by rwa [length_map]) ?_
    intro item hitem
    obtain ⟨original, horiginal, rfl⟩ := mem_map.mp hitem
    exact ih original horiginal
  | document hnames _ ih =>
    refine .document (by rwa [names_mapFields]) ?_
    rw [mapFields_eq]
    intro field hfield
    obtain ⟨original, horiginal, rfl⟩ := mem_map.mp hfield
    exact ih original horiginal

/-! ## Trees that are the same -/

theorem sameItems_iff {others : List (ValueTree A)} :
    sameItems eq items others ↔ items.length = others.length ∧
      ∀ (i : ℕ) item other, items[i]? = some item → others[i]? = some other →
        same eq item other := by
  induction others generalizing items with
  | nil => cases items <;> simp [sameItems]
  | cons other others ih =>
    cases items with
    | nil => simp [sameItems]
    | cons item items =>
      rw [sameItems, Bool.and_eq_true, ih]
      constructor
      · rintro ⟨hfirst, hlength, hrest⟩
        refine ⟨congrArg Nat.succ hlength, ?_⟩
        rintro (_ | i) a b ha hb
        · cases ha
          cases hb
          exact hfirst
        · exact hrest i a b ha hb
      · rintro ⟨hlength, hrest⟩
        exact ⟨hrest 0 item other rfl rfl, Nat.succ.inj hlength,
          fun i a b ha hb => hrest (i + 1) a b ha hb⟩

theorem sameFields_iff {fields others : List (Text × ValueTree A)} :
    sameFields eq fields others ↔ ∀ name other, (name, other) ∈ others →
      ∃ value, fields.lookup name = some value ∧ same eq value other := by
  induction others with
  | nil => simp [sameFields]
  | cons field others ih =>
    obtain ⟨name, other⟩ := field
    rw [sameFields, Bool.and_eq_true, ih]
    have hfirst : (match fields.lookup name with
        | some value => same eq value other
        | none => false) = true ↔ ∃ value, fields.lookup name = some value ∧ same eq value other := by
      cases fields.lookup name <;> simp
    rw [hfirst]
    simp [or_imp, forall_and]

/-- Two documents are the same when they have the same names, with values that are
the same. -/
theorem same_document_iff {fields others : List (Text × ValueTree A)}
    (h : (others.map Prod.fst).Nodup) :
    same eq (document fields) (document others) ↔
      (∀ name, (fields.lookup name).isSome = (others.lookup name).isSome) ∧
      ∀ name value other, fields.lookup name = some value → others.lookup name = some other →
        same eq value other := by
  rw [same, Bool.and_eq_true, sameFields_iff, all_eq_true]
  constructor
  · rintro ⟨hothers, hfields⟩
    constructor
    · intro name
      rw [Bool.eq_iff_iff]
      constructor
      · intro hsome
        obtain ⟨value, hvalue⟩ := Option.isSome_iff_exists.mp hsome
        exact hfields _ (mem_of_lookup hvalue)
      · intro hsome
        obtain ⟨other, hother⟩ := Option.isSome_iff_exists.mp hsome
        obtain ⟨value, hvalue, -⟩ := hothers name other (mem_of_lookup hother)
        rw [hvalue]
        rfl
    · intro name value other hvalue hother
      obtain ⟨found, hfound, hsame⟩ := hothers name other (mem_of_lookup hother)
      rw [hvalue] at hfound
      cases hfound
      exact hsame
  · rintro ⟨hnames, hvalues⟩
    constructor
    · intro name other hmem
      have hother := lookup_eq_some_of_mem h hmem
      have hsome := hnames name
      rw [hother, Option.isSome_some, Option.isSome_iff_exists] at hsome
      obtain ⟨value, hvalue⟩ := hsome
      exact ⟨value, hvalue, hvalues name value other hvalue hother⟩
    · rintro ⟨name, value⟩ hmem
      rw [← hnames name]
      exact isSome_lookup_of_mem hmem

theorem same_mono {finer : A → A → Bool} (h : ∀ a b, eq a b = true → finer a b = true)
    (other : ValueTree A) : ∀ tree : ValueTree A, same eq tree other → same finer tree other := by
  induction other using induct with intro tree hsame
  | leaf b =>
    cases tree with
    | leaf a => exact h a b hsame
    | array | document => cases hsame
  | array others ih =>
    cases tree with
    | leaf | document => cases hsame
    | array items =>
      rw [same, sameItems_iff] at hsame ⊢
      refine ⟨hsame.1, fun i item other hitem hother => ?_⟩
      exact ih other (mem_of_getElem? hother) item (hsame.2 i item other hitem hother)
  | document others ih =>
    cases tree with
    | leaf | array => cases hsame
    | document fields =>
      rw [same, Bool.and_eq_true, sameFields_iff] at hsame ⊢
      refine ⟨fun name other hmem => ?_, hsame.2⟩
      obtain ⟨value, hvalue, hvalues⟩ := hsame.1 name other hmem
      exact ⟨value, hvalue, ih _ hmem value hvalues⟩

theorem same_refl (h : ∀ a, eq a a = true) (htree : WellFormed tree) : same eq tree tree := by
  induction htree with
  | leaf a => exact h a
  | array hlength hitems ih =>
    rw [same, sameItems_iff]
    refine ⟨rfl, fun i item other hitem hother => ?_⟩
    rw [hitem] at hother
    cases hother
    exact ih item (mem_of_getElem? hitem)
  | document hnames hfields ih =>
    rw [same_document_iff hnames]
    refine ⟨fun _ => rfl, fun name value other hvalue hother => ?_⟩
    rw [hvalue] at hother
    cases hother
    exact ih _ (mem_of_lookup hvalue)

/-! ## Edits -/

abbrev Path := List Text

/-- The value at a path. -/
def valueAt : Path → ValueTree A → Option (ValueTree A)
  | [], tree => some tree
  | name :: rest, document fields => (fields.lookup name).bind (valueAt rest)
  | name :: rest, array items =>
    (position name).bind fun i => items[i]?.bind (valueAt rest)
  | _ :: _, leaf _ => none

/-- Put a value at a path, or take away what is there. The last step may name a
new field; nothing else on the path may be missing, and an item is not taken
away. -/
def edit : Path → Option (ValueTree A) → Option (ValueTree A) → Option (Option (ValueTree A))
  | [], some value, _ => some (some value)
  | [], none, some _ => some none
  | [], none, none => none
  | name :: rest, change, some (document fields) =>
    (edit rest change (fields.lookup name)).map fun field =>
      some (document (store name field fields))
  | name :: rest, change, some (array items) => do
    let i ← position name
    let item ← items[i]?
    let item ← (← edit rest change (some item))
    return some (array (items.set i item))
  | _ :: _, _, _ => none

/-- Edits one after the other. -/
def editAll (edits : List (Path × Option (ValueTree A))) (tree : Option (ValueTree A)) :
    Option (Option (ValueTree A)) :=
  edits.foldlM (fun tree (change : Path × Option (ValueTree A)) => edit change.1 change.2 tree) tree

theorem valueAt_append (place path : Path) (tree : ValueTree A) :
    valueAt (place ++ path) tree = (valueAt place tree).bind (valueAt path) := by
  induction place generalizing tree with
  | nil => rfl
  | cons name rest ih =>
    have hrest : valueAt (rest ++ path) =
        fun tree : ValueTree A => (valueAt rest tree).bind (valueAt path) := funext ih
    cases tree with
    | leaf => rfl
    | document | array => simp only [cons_append, valueAt, hrest, Option.bind_assoc]

/-- What leads through a step, without the step. -/
def under (name : Text) (edits : List (Path × C)) : List (Path × C) :=
  edits.filterMap fun change =>
    match change.1 with
    | [] => none
    | head :: rest => if head = name then some (rest, change.2) else none

theorem under_cons_self (name : Text) (rest : Path) (c : C) (edits : List (Path × C)) :
    under name ((name :: rest, c) :: edits) = (rest, c) :: under name edits := by
  simp [under]

theorem under_cons_of_ne {head : Text} (h : head ≠ name) (rest : Path) (c : C)
    (edits : List (Path × C)) : under name ((head :: rest, c) :: edits) = under name edits := by
  simp [under, h]

@[simp] theorem under_append (name : Text) (edits more : List (Path × C)) :
    under name (edits ++ more) = under name edits ++ under name more :=
  filterMap_append ..

/-- Edits behind a step. -/
def behind (name : Text) (edits : List (Path × C)) : List (Path × C) :=
  edits.map fun change => (name :: change.1, change.2)

theorem under_behind (name other : Text) (edits : List (Path × C)) :
    under other (behind name edits) = if name = other then edits else [] := by
  induction edits with
  | nil => simp [behind, under]
  | cons change rest ih =>
    rw [behind, map_cons]
    rw [behind] at ih
    by_cases h : name = other
    · subst h
      rw [under_cons_self, ih, if_pos rfl, if_pos rfl]
    · rw [under_cons_of_ne h, ih, if_neg h, if_neg h]

theorem mem_under {rest : Path} {c : C} {edits : List (Path × C)} :
    (rest, c) ∈ under name edits ↔ (name :: rest, c) ∈ edits := by
  rw [under, mem_filterMap]
  constructor
  · rintro ⟨⟨path, change⟩, hmem, heq⟩
    cases path with
    | nil => cases heq
    | cons head tail =>
      dsimp only at heq
      split_ifs at heq with hhead
      cases heq
      rwa [← hhead]
  · intro hmem
    exact ⟨_, hmem, if_pos rfl⟩

theorem editAll_cons (path : Path) (change : Option (ValueTree A))
    (edits : List (Path × Option (ValueTree A))) (tree : Option (ValueTree A)) :
    editAll ((path, change) :: edits) tree = (edit path change tree).bind (editAll edits) :=
  foldlM_cons

variable {edits : List (Path × Option (ValueTree A))}

/-- **Edits of a document** act on every field by the edits under its name. -/
theorem editAll_document (hpaths : ∀ change ∈ edits, change.1 ≠ [])
    {fields : List (Text × ValueTree A)} {result : Text → Option (ValueTree A)}
    (h : ∀ name, editAll (under name edits) (fields.lookup name) = some (result name)) :
    ∃ stored, editAll edits (some (document fields)) = some (some (document stored)) ∧
      ∀ name, stored.lookup name = result name := by
  induction edits generalizing fields with
  | nil => exact ⟨fields, rfl, fun name => Option.some.inj (h name)⟩
  | cons change rest ih =>
    obtain ⟨path, value⟩ := change
    rw [forall_mem_cons] at hpaths
    obtain ⟨head, tail, rfl⟩ := exists_cons_of_ne_nil hpaths.1
    have hhead := h head
    rw [under_cons_self, editAll_cons] at hhead
    obtain ⟨field, hfield, hfields⟩ := Option.bind_eq_some_iff.mp hhead
    have hrest : ∀ name, editAll (under name rest) ((store head field fields).lookup name) =
        some (result name) := by
      intro name
      rw [lookup_store]
      by_cases hname : name = head
      · rw [if_pos hname, hname, hfields]
      · rw [if_neg hname, ← h name, under_cons_of_ne (Ne.symm hname)]
    obtain ⟨stored, hstored, hresult⟩ := ih hpaths.2 hrest
    refine ⟨stored, ?_, hresult⟩
    rw [editAll_cons, edit, hfield]
    exact hstored

variable {change : Option (ValueTree A)}

theorem edit_eq_some_none {path : Path} (h : edit path change (some tree) = some none) :
    path = [] ∧ change = none := by
  cases path with
  | nil =>
    cases change with
    | none => exact ⟨rfl, rfl⟩
    | some value => cases h
  | cons name rest =>
    cases tree with
    | leaf a => cases h
    | array items =>
      simp only [edit, Option.bind_eq_bind, Option.bind_eq_some_iff, Option.pure_def,
        Option.some.injEq, reduceCtorEq, and_false, exists_false] at h
    | document fields =>
      simp [edit] at h

/-- A loop that performs one edit after the other. -/
theorem foldlM_of_editAll {B : Type} {change : B → Path × Option (ValueTree A)} {items : List B}
    (step : ValueTree A → B → Option (ValueTree A)) (hitems : ∀ b ∈ items, change b ≠ ([], none))
    (hstep : ∀ b tree next, edit (change b).1 (change b).2 (some tree) = some (some next) →
      step tree b = some next) {result : Option (ValueTree A)}
    (h : editAll (items.map change) (some tree) = some result) :
    ∃ next, result = some next ∧ items.foldlM step tree = some next := by
  induction items generalizing tree with
  | nil => exact ⟨tree, (Option.some.inj h).symm, rfl⟩
  | cons b rest ih =>
    rw [forall_mem_cons] at hitems
    obtain ⟨next, hnext, hrest⟩ := Option.bind_eq_some_iff.mp h
    cases next with
    | none =>
      obtain ⟨hpath, hchange⟩ := edit_eq_some_none hnext
      exact absurd (Prod.ext hpath hchange) hitems.1
    | some next =>
      rw [foldlM_cons, hstep b tree next hnext]
      exact ih hitems.2 hrest

/-- The steps of an edit that leaves a value. -/
inductive Edits (change : Option (ValueTree A)) : Path → ValueTree A → ValueTree A → Prop
  | put {tree value} : change = some value → Edits change [] tree value
  | last {name fields} : (change = none → (fields.lookup name).isSome) →
      Edits change [name] (document fields) (document (store name change fields))
  | field {name rest fields child value} : rest ≠ [] → fields.lookup name = some child →
      Edits change rest child value →
      Edits change (name :: rest) (document fields) (document (store name (some value) fields))
  | item {name rest items i item value} : (change = none → rest ≠ []) →
      position name = some i → items[i]? = some item → Edits change rest item value →
      Edits change (name :: rest) (array items) (array (items.set i value))

theorem edits_of_edit {path : Path} {result : ValueTree A}
    (h : edit path change (some tree) = some (some result)) : Edits change path tree result := by
  induction path generalizing tree result with
  | nil =>
    cases change with
    | none => cases h
    | some value =>
      cases h
      exact .put rfl
  | cons name rest ih =>
    cases tree with
    | leaf a => cases h
    | document fields =>
      obtain ⟨field, hfield, hresult⟩ := Option.map_eq_some_iff.mp h
      cases hresult
      cases hlookup : fields.lookup name with
      | none =>
        -- only the last step can name a new field
        rw [hlookup] at hfield
        cases rest with
        | cons next more => cases hfield
        | nil =>
          cases change with
          | none => cases hfield
          | some value =>
            cases hfield
            exact .last fun hnone => by cases hnone
      | some child =>
        rw [hlookup] at hfield
        by_cases hrest : rest = []
        · subst hrest
          cases change <;> cases hfield <;> exact .last fun _ => by rw [hlookup]; rfl
        · cases field with
          | none => exact absurd (edit_eq_some_none hfield).1 hrest
          | some value => exact .field hrest hlookup (ih hfield)
    | array items =>
      simp only [edit, Option.bind_eq_bind, Option.bind_eq_some_iff] at h
      obtain ⟨i, hi, item, hitem, _, hedit, value, rfl, hresult⟩ := h
      cases hresult
      refine .item ?_ hi hitem (ih hedit)
      rintro rfl rfl
      cases hedit

/-- **Edits of an array** act on every item by the edits under its numeral. -/
theorem editAll_array {results : List (ValueTree A)} (hcapacity : items.length ≤ usizeMax)
    (hpaths : ∀ change ∈ edits, ∃ i rest, i < items.length ∧ change.1 = decimal i :: rest ∧
      (rest ≠ [] ∨ change.2 ≠ none)) (hlength : results.length = items.length)
    (h : ∀ i, i < items.length → editAll (under (decimal i) edits) items[i]? = some results[i]?) :
    editAll edits (some (array items)) = some (some (array results)) := by
  induction edits generalizing items with
  | nil =>
    have hitems : items = results := by
      apply ext_getElem?
      intro i
      by_cases hi : i < items.length
      · exact Option.some.inj (h i hi)
      · rw [getElem?_eq_none (by omega), getElem?_eq_none (by omega)]
    rw [hitems]
    rfl
  | cons change rest ih =>
    obtain ⟨path, value⟩ := change
    rw [forall_mem_cons] at hpaths
    obtain ⟨⟨i, tail, hi, hpath, hkept⟩, hrest⟩ := hpaths
    subst hpath
    have hhead := h i hi
    rw [under_cons_self, editAll_cons, getElem?_eq_getElem hi] at hhead
    obtain ⟨field, hfield, hfields⟩ := Option.bind_eq_some_iff.mp hhead
    obtain ⟨item, rfl⟩ : ∃ item, field = some item := by
      cases field with
      | some item => exact ⟨item, rfl⟩
      | none =>
        obtain ⟨htail, hvalue⟩ := edit_eq_some_none hfield
        exact absurd hvalue (hkept.resolve_left (not_not_intro htail))
    rw [editAll_cons, edit]
    simp only [position_decimal (Nat.le_of_lt (Nat.lt_of_lt_of_le hi hcapacity)),
      getElem?_eq_getElem hi, hfield, Option.bind_eq_bind,
      Option.bind_some, Option.pure_def]
    apply ih
    · simpa using hcapacity
    · simpa using hrest
    · simpa using hlength
    · intro j hj
      rw [length_set] at hj
      by_cases hij : i = j
      · subst hij
        rw [getElem?_set_self hi, hfields]
      · have hname : decimal i ≠ decimal j := fun heq => hij (decimal_injective heq)
        rw [getElem?_set_ne hij, ← h j hj, under_cons_of_ne hname]

/-! ## Paths that are apart -/

/-- Neither path leads through the other's end. -/
def Apart (p q : Path) : Prop := ¬ p <+: q ∧ ¬ q <+: p

theorem apart_cons {head other : Text} {p q : Path} :
    Apart (head :: p) (other :: q) ↔ (head = other → Apart p q) := by
  unfold Apart
  rw [cons_prefix_cons, cons_prefix_cons]
  tauto

theorem pairwise_of_under {edits : List (Path × C)} (hpaths : ∀ change ∈ edits, change.1 ≠ [])
    (h : ∀ name, (under name edits).Pairwise fun a b => Apart a.1 b.1) :
    edits.Pairwise fun a b => Apart a.1 b.1 := by
  induction edits with
  | nil => exact .nil
  | cons change rest ih =>
    obtain ⟨path, c⟩ := change
    rw [forall_mem_cons] at hpaths
    obtain ⟨head, tail, rfl⟩ := exists_cons_of_ne_nil hpaths.1
    constructor
    · rintro ⟨other, c'⟩ hmem
      obtain ⟨head', tail', rfl⟩ := exists_cons_of_ne_nil (hpaths.2 _ hmem)
      rw [apart_cons]
      rintro rfl
      have hhead := h head
      rw [under_cons_self, pairwise_cons] at hhead
      exact hhead.1 (tail', c') (mem_under.mpr hmem)
    · apply ih hpaths.2
      intro name
      by_cases hname : head = name
      · have hhead := h name
        rw [← hname, under_cons_self, pairwise_cons] at hhead
        exact hname ▸ hhead.2
      · have hrest := h name
        rwa [under_cons_of_ne hname] at hrest

end ValueTree

end Dbflux.Lib

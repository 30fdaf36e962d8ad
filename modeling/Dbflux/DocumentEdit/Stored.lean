import Dbflux.DocumentEdit.Patch

/-!
# A patch performed on what is stored

The document that a patch is made from is read from a stored tree, leaf by leaf,
and the values that the patch sets are written back in a form that may depend on
what is stored at their path. `Holds` says what a stored tree is after an edit: a
part that reads as the edited value is kept, another part is what is written for
it.

Results:
* `editAll_changes`: performing the changes between what is read and an edited
  value leaves a tree that holds the edited value.
* `applyTo_diff`: in particular the patch of two documents turns one into the
  other.
* `valueAt_of_holds`: what stands at the place of a change in such a tree.
-/

namespace Dbflux.DocumentEdit

open Dbflux.Lib Dbflux.Lib.ValueTree

variable {A S : Type}

/-- The changes as they are written, over what is stored. -/
def convert (write : ValueTree S → Option (ValueTree A) → ValueTree A) (stored : Option (ValueTree A))
    (edits : List (Path × Option (ValueTree S))) : List (Path × Option (ValueTree A)) :=
  edits.map fun change =>
    (change.1, change.2.map fun value => write value (stored.bind (valueAt change.1)))

/-- What a tree is after an edit, given what was stored in its place: `Written`
says which tree is written for a value. -/
inductive Holds (eq : S → S → Bool) (read : A → S)
    (Written : ValueTree S → Option (ValueTree A) → ValueTree A → Prop) :
    Option (ValueTree A) → ValueTree A → ValueTree S → Prop
  | kept {tree : ValueTree A} {value : ValueTree S} (h : same eq (tree.map read) value) :
      Holds eq read Written (some tree) tree value
  | written {stored : Option (ValueTree A)} {tree : ValueTree A} {value : ValueTree S}
      (h : Written value stored tree) : Holds eq read Written stored tree value
  | document {stored fields : List (Text × ValueTree A)} {values : List (Text × ValueTree S)}
      (hnames : ∀ name, (fields.lookup name).isSome = (values.lookup name).isSome)
      (hfields : ∀ name field value, fields.lookup name = some field →
        values.lookup name = some value →
        Holds eq read Written (stored.lookup name) field value) :
      Holds eq read Written (some (.document stored)) (.document fields) (.document values)
  | array {stored items : List (ValueTree A)} {values : List (ValueTree S)}
      (hstored : stored.length = values.length) (hlength : items.length = values.length)
      (hitems : ∀ (i : ℕ) item value, items[i]? = some item → values[i]? = some value →
        Holds eq read Written stored[i]? item value) :
      Holds eq read Written (some (.array stored)) (.array items) (.array values)

section Perform

variable {eq : S → S → Bool} {read : A → S} {write : ValueTree S → Option (ValueTree A) → ValueTree A}
  {Written : ValueTree S → Option (ValueTree A) → ValueTree A → Prop}

theorem convert_setsFirst (stored : Option (ValueTree A)) (edits : List (Path × Option (ValueTree S))) :
    convert write stored (setsFirst edits) = setsFirst (convert write stored edits) := by
  simp [setsFirst, convert, List.filter_map, Function.comp_def]

variable {stored : ValueTree A} {name : Text}

theorem under_convert (step : Option (ValueTree A))
    (hstep : ∀ rest, valueAt (name :: rest) stored = step.bind (valueAt rest))
    (edits : List (Path × Option (ValueTree S))) :
    under name (convert write (some stored) edits) = convert write step (under name edits) := by
  induction edits with
  | nil => rfl
  | cons change rest ih =>
    obtain ⟨_ | ⟨head, tail⟩, value⟩ := change
    · simpa [under, convert] using ih
    · rw [convert, List.map_cons]
      rw [convert] at ih
      by_cases hhead : head = name
      · subst hhead
        rw [under_cons_self, under_cons_self, ih, convert, convert, List.map_cons]
        simp [hstep]
      · rw [under_cons_of_ne hhead, under_cons_of_ne hhead, ih]

/-- What performing the changes leaves. -/
def Performed (eq : S → S → Bool) (read : A → S)
    (write : ValueTree S → Option (ValueTree A) → ValueTree A)
    (Written : ValueTree S → Option (ValueTree A) → ValueTree A → Prop) (stored : ValueTree A)
    (edited : ValueTree S) : Prop :=
  (∀ path value, (path, some value) ∈ changes eq (stored.map read) edited →
      Written value (valueAt path stored) (write value (valueAt path stored))) →
    ∃ result,
      editAll (setsFirst (convert write (some stored) (changes eq (stored.map read) edited)))
        (some stored) = some (some result) ∧
      Holds eq read Written (some stored) result edited

variable {edited : ValueTree S}

theorem performed_of_same (hsame : same eq (stored.map read) edited) :
    Performed eq read write Written stored edited := by
  intro _
  rw [changes_of_same hsame]
  exact ⟨stored, rfl, .kept hsame⟩

theorem performed_of_whole (hchanges : changes eq (stored.map read) edited = [([], some edited)]) :
    Performed eq read write Written stored edited := by
  intro hwrite
  rw [hchanges] at hwrite ⊢
  exact ⟨write edited (some stored), rfl, .written (hwrite [] edited (List.mem_singleton_self _))⟩

theorem performed_document {fields : List (Text × ValueTree A)} {after : List (Text × ValueTree S)}
    (ih : ∀ name value edited, fields.lookup name = some value →
      after.lookup name = some edited → Performed eq read write Written value edited)
    (hfields : (fields.map Prod.fst).Nodup) (hafter : (after.map Prod.fst).Nodup)
    (hsame : ¬ same eq ((document fields).map read) (document after)) :
    Performed eq read write Written (document fields) (document after) := by
  intro hwrite
  have hunder : ∀ name, under name (changes eq ((document fields).map read) (document after)) =
      fieldChanges eq ((fields.lookup name).map (.map read)) (after.lookup name) := by
    intro name
    rw [← lookup_mapFields]
    exact under_changes_document (by rwa [names_mapFields]) hafter hsame name
  have hfield : ∀ name, ∃ result,
      editAll (under name (setsFirst (convert write (some (document fields))
        (changes eq ((document fields).map read) (document after))))) (fields.lookup name) =
          some result ∧
        result.isSome = (after.lookup name).isSome ∧
        ∀ tree edited, result = some tree → after.lookup name = some edited →
          Holds eq read Written (fields.lookup name) tree edited := by
    intro name
    have hname : ∀ path value,
        (path, some value) ∈ fieldChanges eq ((fields.lookup name).map (.map read))
          (after.lookup name) →
        Written value ((fields.lookup name).bind (valueAt path))
          (write value ((fields.lookup name).bind (valueAt path))) := by
      intro path value hmem
      rw [← hunder name] at hmem
      exact hwrite (name :: path) value (mem_under.mp hmem)
    rw [under_setsFirst, under_convert (fields.lookup name) (fun _ => rfl), hunder name]
    cases hstored : fields.lookup name with
    | none =>
      cases hedited : after.lookup name with
      | none => exact ⟨none, rfl, rfl, fun _ _ htree => by cases htree⟩
      | some edited =>
        refine ⟨some (write edited none), rfl, rfl, ?_⟩
        intro tree value htree hvalue
        cases htree
        cases hvalue
        rw [hstored, hedited] at hname
        exact .written (hname [] edited (List.mem_singleton_self _))
    | some stored =>
      cases hedited : after.lookup name with
      | none => exact ⟨none, rfl, rfl, fun _ _ htree => by cases htree⟩
      | some edited =>
        rw [hstored, hedited] at hname
        obtain ⟨result, hresult, hholds⟩ := ih name stored edited hstored hedited hname
        refine ⟨some result, hresult, rfl, ?_⟩
        intro tree value htree hvalue
        cases htree
        cases hvalue
        exact hholds
  choose result hresult hsome hholds using hfield
  have hpaths : ∀ change ∈ setsFirst (convert write (some (document fields))
      (changes eq ((document fields).map read) (document after))), change.1 ≠ [] := by
    rw [← convert_setsFirst]
    intro change hmem
    obtain ⟨original, horiginal, rfl⟩ := List.mem_map.mp hmem
    show original.1 ≠ []
    exact ne_nil_of_mem_changes_document (mem_setsFirst.mp horiginal)
  obtain ⟨stored, hstored, hlookup⟩ := editAll_document hpaths hresult
  refine ⟨document stored, hstored, .document ?_ ?_⟩
  · intro name
    rw [hlookup, hsome]
  · intro name field value hfield hvalue
    rw [hlookup] at hfield
    exact hholds name field value hfield hvalue

theorem performed_array {items : List (ValueTree A)} {after : List (ValueTree S)}
    (ih : ∀ (i : ℕ) item edited, items[i]? = some item → after[i]? = some edited →
      Performed eq read write Written item edited)
    (hcapacity : items.length ≤ usizeMax) (hlength : items.length = after.length)
    (hsame : ¬ same eq ((array items).map read) (array after)) :
    Performed eq read write Written (array items) (array after) := by
  intro hwrite
  have hchanges : changes eq ((array items).map read) (array after) =
      changesItems eq 0 (mapItems read items) after := by
    rw [ValueTree.map] at hsame ⊢
    rw [changes, if_neg hsame, if_pos (by rw [mapItems_eq, List.length_map, hlength])]
  rw [hchanges] at hwrite ⊢
  have hstep : ∀ (i : ℕ), i < items.length → ∀ rest,
      valueAt (decimal i :: rest) (array items) = items[i]?.bind (valueAt rest) := by
    intro i hi rest
    rw [valueAt, position_decimal (by omega)]
    rfl
  have hitem : ∀ i : Fin items.length, ∃ result,
      editAll (under (decimal i) (setsFirst (convert write (some (array items))
        (changesItems eq 0 (mapItems read items) after)))) items[i.1]? = some (some result) ∧
      ∀ edited, after[i.1]? = some edited → Holds eq read Written items[i.1]? result edited := by
    rintro ⟨i, hi⟩
    have hstored : items[i]? = some items[i] := List.getElem?_eq_getElem hi
    have hedited : after[i]? = some after[i] := List.getElem?_eq_getElem (hlength ▸ hi)
    have hunder : under (decimal i) (changesItems eq 0 (mapItems read items) after) =
        changes eq (items[i].map read) after[i] := by
      have hread : (mapItems read items)[i]? = some (items[i].map read) := by
        rw [getElem?_mapItems, hstored]
        rfl
      have hitems := under_changesItems eq 0 i hread hedited
      rwa [Nat.zero_add] at hitems
    obtain ⟨result, hresult, hholds⟩ := ih i _ _ hstored hedited (by
      intro path value hmem
      rw [← hunder] at hmem
      have := hwrite (decimal i :: path) value (mem_under.mp hmem)
      rw [hstep i hi, hstored] at this
      exact this)
    refine ⟨result, ?_, ?_⟩
    · dsimp only
      rw [under_setsFirst, under_convert items[i]? (hstep i hi), hunder, hstored]
      exact hresult
    · intro edited heq
      rw [hedited] at heq
      cases heq
      rw [hstored]
      exact hholds
  choose result hresult hholds using hitem
  have hpaths : ∀ change ∈ setsFirst (convert write (some (array items))
      (changesItems eq 0 (mapItems read items) after)), ∃ i rest, i < items.length ∧
        change.1 = decimal i :: rest ∧ (rest ≠ [] ∨ change.2 ≠ none) := by
    intro change hmem
    obtain ⟨⟨path, value⟩, hchange, rfl⟩ := List.mem_map.mp (mem_setsFirst.mp hmem)
    obtain ⟨j, rest, item, edited, hitem, -, rfl, hrest⟩ := mem_changesItems hchange
    refine ⟨j, rest, ?_, by simp, ?_⟩
    · have hj := (List.getElem?_eq_some_iff.mp hitem).1
      rwa [mapItems_eq, List.length_map] at hj
    · rw [or_iff_not_imp_left, not_not]
      rintro rfl
      rw [(eq_of_nil_mem_changes hrest).1]
      simp
  refine ⟨array (.ofFn result), ?_, .array hlength ?_ ?_⟩
  · apply editAll_array hcapacity hpaths (List.length_ofFn)
    intro i hi
    rw [hresult ⟨i, hi⟩, List.getElem?_ofFn, dif_pos hi]
  · rw [List.length_ofFn, hlength]
  · intro i item value hitem hvalue
    rw [List.getElem?_ofFn] at hitem
    split_ifs at hitem with hi
    cases hitem
    exact hholds ⟨i, hi⟩ value hvalue

/-- **Performing the changes.** -/
theorem editAll_changes (edited : ValueTree S) :
    ∀ stored : ValueTree A, WellFormed stored → WellFormed edited →
      Performed eq read write Written stored edited := by
  induction edited using induct with
  | leaf a =>
    intro stored _ _
    by_cases hsame : same eq (stored.map read) (leaf a) = true
    · exact performed_of_same hsame
    · exact performed_of_whole (by rw [changes, if_neg hsame])
  | array after ih =>
    intro stored hstored hedited
    cases stored with
    | array items =>
      by_cases hsame : same eq ((array items).map read) (array after) = true
      · exact performed_of_same hsame
      · by_cases hlength : items.length = after.length
        · apply performed_array _ hstored.length_le hlength hsame
          intro i item edited hitem hafter
          exact ih edited (List.mem_of_getElem? hafter) item (hstored.item hitem)
            (hedited.item hafter)
        · apply performed_of_whole
          rw [ValueTree.map] at hsame ⊢
          rw [changes, if_neg hsame, if_neg (by rwa [mapItems_eq, List.length_map])]
    | leaf | document => exact performed_of_whole rfl
  | document after ih =>
    intro stored hstored hedited
    cases stored with
    | document fields =>
      by_cases hsame : same eq ((document fields).map read) (document after) = true
      · exact performed_of_same hsame
      · apply performed_document _ hstored.nodup hedited.nodup hsame
        intro name value edited hvalue hafter
        exact ih _ (mem_of_lookup hafter) value (hstored.field hvalue)
          (hedited.field hafter)
    | leaf | array => exact performed_of_whole rfl

end Perform

/-! ## The patch applied to the document it was made from -/

section Apply

variable {eq : S → S → Bool} {value : ValueTree S} {result : Option (ValueTree S)}

theorem applyTo_of_editAll {patch : DocumentPatch S} (hpaths : ∀ path ∈ patch.unset, path ≠ [])
    {result : ValueTree S} (h : editAll patch.edits (some value) = some (some result)) :
    patch.applyTo value = result := by
  rw [DocumentPatch.edits, editAll, List.foldlM_append] at h
  obtain ⟨middle, hset, hunset⟩ := Option.bind_eq_some_iff.mp h
  obtain ⟨next, rfl, hnext⟩ := foldlM_of_editAll
    (fun value entry => pure ((setValueAtPath entry.2 entry.1 value).getD value)) (by simp)
    (fun entry value next hedit => by rw [setValueAtPath_of_edit hedit]; rfl) hset
  obtain ⟨last, hlast, hremoved⟩ := foldlM_of_editAll
    (fun value path => pure ((removeValueAtPath path value).getD value)) (by simpa using hpaths)
    (fun path value next hedit => by rw [removeValueAtPath_of_edit hedit]; rfl) hunset
  rw [List.foldlM_pure] at hnext hremoved
  cases hnext
  cases hlast
  exact Option.some.inj hremoved

/-- A comparison of leaves that finds a leaf the same as itself, and whatever
`eq` does. -/
structure Extends (eq finer : S → S → Bool) : Prop where
  refl : ∀ a, finer a a = true
  of_eq : ∀ a b, eq a b = true → finer a b = true

variable {finer : S → S → Bool}

/-- A tree reads as the edited value if everything that was written does. -/
theorem same_of_holds {read : A → S} {Written : ValueTree S → Option (ValueTree A) → ValueTree A → Prop}
    (hof : ∀ a b, eq a b = true → finer a b = true)
    (hwritten : ∀ {value stored tree}, WellFormed value → Written value stored tree →
      same finer (tree.map read) value)
    {stored : Option (ValueTree A)} {result : ValueTree A} {edited : ValueTree S}
    (hholds : Holds eq read Written stored result edited) (hedited : WellFormed edited) :
    same finer (result.map read) edited := by
  induction hholds with
  | kept hsame => exact same_mono hof _ _ hsame
  | written h => exact hwritten hedited h
  | document hnames hfields ih =>
    rw [ValueTree.map, same_document_iff hedited.nodup]
    simp only [lookup_mapFields, Option.isSome_map]
    refine ⟨hnames, fun name field value hfield hvalue => ?_⟩
    obtain ⟨found, hfound, rfl⟩ := Option.map_eq_some_iff.mp hfield
    exact ih name found value hfound hvalue (hedited.field hvalue)
  | array _ hlength hitems ih =>
    rw [ValueTree.map, same, sameItems_iff]
    simp only [mapItems_eq, List.length_map, List.getElem?_map]
    refine ⟨hlength, fun i item value hitem hvalue => ?_⟩
    obtain ⟨found, hfound, rfl⟩ := Option.map_eq_some_iff.mp hitem
    exact ih i found value hfound hvalue (hedited.item hvalue)

/-- **A patch performs its edit**: applied to the original document it gives the
edited one. -/
theorem applyTo_diff (h : Extends eq finer) {before after : List (Text × ValueTree S)}
    (hbefore : WellFormed (document before)) (hafter : WellFormed (document after)) :
    same finer ((diff eq (document before) (document after)).applyTo (document before))
      (document after) := by
  have hperformed : Performed eq id (fun value _ => value) (fun value _ tree => tree = value)
      (document before) (document after) :=
    editAll_changes _ _ hbefore hafter
  obtain ⟨result, hresult, hholds⟩ := hperformed fun _ _ _ => rfl
  simp only [convert, Option.map_id', Prod.mk.eta, List.map_id_fun', id_eq] at hresult
  rw [map_id, ← DocumentPatch.edits_extend_empty, ← diff_eq] at hresult
  rw [applyTo_of_editAll _ hresult]
  · have hsame := same_of_holds h.of_eq (fun hvalue heq => by
      rw [map_id, heq]; exact same_refl h.refl hvalue) hholds hafter
    rwa [map_id] at hsame
  · intro path hpath
    have hmem : (path, none) ∈ (diff eq (document before) (document after)).edits :=
      List.mem_append_right _ (List.mem_map_of_mem hpath)
    rw [diff_eq, DocumentPatch.edits_extend_empty, mem_setsFirst] at hmem
    exact ne_nil_of_mem_changes_document hmem

end Apply

/-! ## The places of the changes -/

section Places

variable {eq : S → S → Bool} {read : A → S}
    {Written : ValueTree S → Option (ValueTree A) → ValueTree A → Prop}

/-- Documents and arrays are written field by field and item by item over documents
and arrays. -/
structure FieldWise (Written : ValueTree S → Option (ValueTree A) → ValueTree A → Prop) : Prop where
  document : ∀ {values : List (Text × ValueTree S)} {stored : List (Text × ValueTree A)}
      {tree : ValueTree A},
    Written (document values) (some (document stored)) tree →
    ∃ fields, tree = document fields ∧
      (∀ name, (fields.lookup name).isSome = (values.lookup name).isSome) ∧
      ∀ name field value, fields.lookup name = some field → values.lookup name = some value →
        Written value (stored.lookup name) field
  array : ∀ {values : List (ValueTree S)} {stored : List (ValueTree A)} {tree : ValueTree A},
    Written (array values) (some (array stored)) tree →
    ∃ items, tree = array items ∧ items.length = values.length ∧
      ∀ (i : ℕ) item value, items[i]? = some item → values[i]? = some value →
        Written value stored[i]? item

variable {change : Option (ValueTree S)}

/-- What a change behind a step can be, in terms of what is stored. -/
theorem stored_cons_cases {rest : Path} (hstored : WellFormed stored) (hedited : WellFormed edited)
    (h : (name :: rest, change) ∈ changes eq (stored.map read) edited) :
    (∃ fields values, stored = document fields ∧ edited = document values ∧
      ((∃ field value, fields.lookup name = some field ∧ values.lookup name = some value ∧
          (rest, change) ∈ changes eq (field.map read) value) ∨
        (rest = [] ∧ change = values.lookup name ∧
          (fields.lookup name).isSome ≠ (values.lookup name).isSome))) ∨
    ∃ items values j item value, stored = array items ∧ edited = array values ∧
      name = decimal j ∧ j ≤ usizeMax ∧ items[j]? = some item ∧ values[j]? = some value ∧
      (rest, change) ∈ changes eq (item.map read) value := by
  obtain ⟨before, values, hbefore, rfl, hfield⟩ |
      ⟨before, values, j, item, value, hbefore, rfl, rfl, hj, hitem, hvalue, hrest⟩ :=
    changes_cons_cases (hstored.map read) hedited h
  · left
    cases stored with
    | leaf | array => cases hbefore
    | document fields =>
      cases hbefore
      refine ⟨fields, values, rfl, rfl, ?_⟩
      rw [lookup_mapFields] at hfield
      obtain ⟨old, new, hold, hnew, hrest⟩ | ⟨hold, new, hnew, hrest, hchange⟩ |
          ⟨⟨old, hold⟩, hnew, hrest, hchange⟩ := fieldChanges_cases hfield
      · obtain ⟨field, hlookup, rfl⟩ := Option.map_eq_some_iff.mp hold
        exact .inl ⟨field, new, hlookup, hnew, hrest⟩
      · rw [Option.map_eq_none_iff] at hold
        exact .inr ⟨hrest, hchange.trans hnew.symm, by simp [hold, hnew]⟩
      · obtain ⟨field, hlookup, -⟩ := Option.map_eq_some_iff.mp hold
        exact .inr ⟨hrest, hchange.trans hnew.symm, by simp [hlookup, hnew]⟩
  · right
    cases stored with
    | leaf | document => cases hbefore
    | array items =>
      cases hbefore
      rw [getElem?_mapItems] at hitem
      obtain ⟨stored, hstored, rfl⟩ := Option.map_eq_some_iff.mp hitem
      exact ⟨items, values, j, stored, value, rfl, rfl, rfl, hj, hstored, hvalue, hrest⟩

/-- A change behind a step that is no numeral is in a document. -/
theorem document_of_mem_changes {place : Path} (hname : position name = none) {rest : Path}
    (hstored : WellFormed stored) (hedited : WellFormed edited)
    (h : (place ++ name :: rest, change) ∈ changes eq (stored.map read) edited) :
    ∃ fields, valueAt place stored = some (document fields) := by
  induction place generalizing stored edited with
  | nil =>
    obtain ⟨fields, -, rfl, -⟩ | ⟨_, _, j, _, _, _, _, rfl, hj, -⟩ :=
      stored_cons_cases hstored hedited h
    · exact ⟨fields, rfl⟩
    · rw [position_decimal hj] at hname
      cases hname
  | cons step place ih =>
    obtain ⟨fields, values, rfl, rfl, hfield⟩ |
        ⟨items, values, j, item, value, rfl, rfl, rfl, hj, hitem, hvalue, hrest⟩ :=
      stored_cons_cases hstored hedited h
    · obtain ⟨field, value, hlookup, hvalue, hrest⟩ | ⟨hnil, -⟩ := hfield
      · obtain ⟨found, hfound⟩ := ih (hstored.field hlookup) (hedited.field hvalue) hrest
        refine ⟨found, ?_⟩
        rw [valueAt, hlookup]
        exact hfound
      · simp at hnil
    · obtain ⟨found, hfound⟩ := ih (hstored.item hitem) (hedited.item hvalue) hrest
      refine ⟨found, ?_⟩
      rw [valueAt, position_decimal hj]
      simp only [Option.bind_some, hitem]
      exact hfound

section Parts

variable {Written : ValueTree S → Option (ValueTree A) → ValueTree A → Prop} {result : ValueTree A}

/-- A tree that holds an edited document is one, and holds its fields. -/
theorem fields_of_holds {fields : List (Text × ValueTree A)} {values : List (Text × ValueTree S)}
    (h : Holds eq read Written (some (document fields)) result (document values))
    (hwise : FieldWise Written)
    (hsame : ¬ same eq ((document fields).map read) (document values) = true) :
    ∃ results, result = document results ∧
      (∀ name, (results.lookup name).isSome = (values.lookup name).isSome) ∧
      ∀ name found value, results.lookup name = some found → values.lookup name = some value →
        Holds eq read Written (fields.lookup name) found value := by
  cases h with
  | kept hkept => exact absurd hkept hsame
  | written hwritten =>
    obtain ⟨results, htree, hnames, hfields⟩ := hwise.document hwritten
    exact ⟨results, htree, hnames, fun name found value hfound hvalue =>
      .written (hfields name found value hfound hvalue)⟩
  | document hnames hfields => exact ⟨_, rfl, hnames, hfields⟩

/-- A tree that holds an edited array is one, and holds its items. -/
theorem items_of_holds {items : List (ValueTree A)} {values : List (ValueTree S)}
    (h : Holds eq read Written (some (array items)) result (array values))
    (hwise : FieldWise Written)
    (hsame : ¬ same eq ((array items).map read) (array values) = true) :
    ∃ results, result = array results ∧ results.length = values.length ∧
      ∀ (i : ℕ) found value, results[i]? = some found → values[i]? = some value →
        Holds eq read Written items[i]? found value := by
  cases h with
  | kept hkept => exact absurd hkept hsame
  | written hwritten =>
    obtain ⟨results, htree, hlength, hitems⟩ := hwise.array hwritten
    exact ⟨results, htree, hlength, fun i found value hfound hvalue =>
      .written (hitems i found value hfound hvalue)⟩
  | array _ hlength hitems => exact ⟨_, rfl, hlength, hitems⟩

end Parts

/-- **The place of a change** in a tree that holds the edited value: what was written for
the value that is set, and nothing where a field is removed. -/
theorem valueAt_of_holds (hwise : FieldWise Written) (path : Path) :
    ∀ (stored result : ValueTree A) (edited : ValueTree S) (change : Option (ValueTree S)),
      WellFormed stored → WellFormed edited →
      (path, change) ∈ changes eq (stored.map read) edited →
      Holds eq read Written (some stored) result edited →
      (∀ value, change = some value →
        ∃ tree, valueAt path result = some tree ∧ Written value (valueAt path stored) tree) ∧
      (change = none → valueAt path result = none ∧ valueAt path stored ≠ none) := by
  induction path with intro stored result edited change hstored hedited hmem hholds
  | nil =>
    obtain ⟨rfl, hwhole⟩ := eq_of_nil_mem_changes hmem
    refine ⟨fun value hvalue => ⟨result, rfl, ?_⟩, nofun⟩
    cases hvalue
    cases hholds with
    | kept hkept => exact absurd hkept (not_same_of_mem_changes hmem)
    | written hwritten => exact hwritten
    | document hnames hfields => exact absurd rfl (ne_nil_of_mem_changes_document hmem)
    | array hlength =>
      rw [ValueTree.map, changes, if_neg (not_same_of_mem_changes hmem),
        if_pos (by rw [mapItems_eq, List.length_map, hlength])] at hmem
      exact absurd rfl (ne_nil_of_mem_changesItems hmem)
  | cons name rest ih =>
    have hsame := not_same_of_mem_changes hmem
    obtain ⟨fields, values, rfl, rfl, hfield⟩ |
        ⟨items, values, j, item, value, rfl, rfl, rfl, hj, hitem, hvalue, hrest⟩ :=
      stored_cons_cases hstored hedited hmem
    · obtain ⟨results, rfl, hnames, hfields⟩ := fields_of_holds hholds hwise hsame
      have hfound : ∀ value, values.lookup name = some value →
          ∃ found, results.lookup name = some found := by
        intro value hvalue
        rw [← Option.isSome_iff_exists, hnames, hvalue]
        rfl
      rw [valueAt, valueAt]
      obtain ⟨field, value, hlookup, hvalue, hrest⟩ | ⟨rfl, rfl, hpresent⟩ := hfield
      · obtain ⟨found, hfound⟩ := hfound value hvalue
        rw [hlookup, hfound]
        exact ih field found value change (hstored.field hlookup) (hedited.field hvalue) hrest
          (hlookup ▸ hfields name found value hfound hvalue)
      · -- a field that comes or goes
        refine ⟨fun value hvalue => ?_, fun hvalue => ?_⟩
        · obtain ⟨found, hfound⟩ := hfound value hvalue
          have hlookup : fields.lookup name = none := by
            by_contra hne
            exact hpresent (by rw [hvalue, Option.isSome_iff_ne_none.mpr hne]; rfl)
          have hheld := hfields name found value hfound hvalue
          rw [hlookup] at hheld ⊢
          rw [hfound]
          cases hheld with
          | written hwritten => exact ⟨found, rfl, hwritten⟩
        · have hnone := hnames name
          simp only [hvalue, Option.isSome_none, Option.isSome_eq_false_iff,
            Option.isNone_iff_eq_none] at hnone
          rw [hnone]
          refine ⟨rfl, fun hstored => ?_⟩
          cases hlookup : fields.lookup name with
          | none => simp [hlookup, hvalue] at hpresent
          | some field => simp [hlookup, valueAt] at hstored
    · obtain ⟨results, rfl, hlength, hitems⟩ := items_of_holds hholds hwise hsame
      obtain ⟨found, hfound⟩ : ∃ found, results[j]? = some found := by
        have := (List.getElem?_eq_some_iff.mp hvalue).1
        exact ⟨_, List.getElem?_eq_getElem (by omega)⟩
      simp only [valueAt, position_decimal hj, Option.bind_some, hfound, hitem]
      exact ih item found value change (hstored.item hitem) (hedited.item hvalue) hrest
        (hitem ▸ hitems j found value hfound hvalue)

/-- What reads as a value does so field by field and item by item. -/
theorem fieldWise_same (eq : S → S → Bool) (read : A → S) :
    FieldWise fun value (_ : Option (ValueTree A)) tree =>
      WellFormed value ∧ same eq (tree.map read) value where
  document := by
    rintro values stored tree ⟨hvalue, h⟩
    cases tree with
    | leaf | array => cases h
    | document fields =>
      rw [ValueTree.map, same_document_iff hvalue.nodup] at h
      simp only [lookup_mapFields, Option.isSome_map] at h
      exact ⟨fields, rfl, h.1, fun name field value hfield hlookup =>
        ⟨hvalue.field hlookup, h.2 name _ value (by rw [hfield]; rfl) hlookup⟩⟩
  array := by
    rintro values stored tree ⟨hvalue, h⟩
    cases tree with
    | leaf | document => cases h
    | array items =>
      rw [ValueTree.map, same, sameItems_iff] at h
      simp only [mapItems_eq, List.length_map, List.getElem?_map] at h
      exact ⟨items, rfl, h.1, fun i item value hitem hlookup =>
        ⟨hvalue.item hlookup, h.2 i _ value (by rw [hitem]; rfl) hlookup⟩⟩

end Places

end Dbflux.DocumentEdit

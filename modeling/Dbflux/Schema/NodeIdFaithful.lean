import Dbflux.Schema.NodeId

/-!
# Which node ids are faithful

The bar that separates the fields of an id may stand in a name too: database
objects can have any name. An id is read back as it was written exactly if no
name in front of the last part holds a bar, and a script has a path.

Results:
* `faithful_of_fromStr`: every id that is read is faithful.
* `fromStr_display_iff`: an id is read back exactly if it is faithful, and
  faithful ids have different texts.
* `table_name_with_bar`: two tables with one text.
-/

namespace Dbflux.Schema

open Lib
open Option (bind_eq_bind bind_eq_some_iff)
open SchemaNodeId (fields kind display)

variable {U : Type} {codec : UuidText U}

/-- The ids that are read back as they were written. The last part of a text may
hold bars, which are not split off any more or are joined again. -/
def Faithful (codec : UuidText U) : SchemaNodeId U → Prop
  | .scriptsFolder _ => True
  | .scriptFile path | .scriptsRoot path => path ≠ []
  | .secretPath _ storeId _ => '|' ∉ storeId
  | .collectionChild _ database collection childId _ =>
    '|' ∉ database ∧ '|' ∉ collection ∧ '|' ∉ childId
  | id => ∀ field ∈ id.fields codec, '|' ∉ field

/-! ## What is read is faithful -/

section

variable {parts : List Text} {id : SchemaNodeId U}
  (hparts : ∀ i part, i < 5 → parts[i]? = some part → '|' ∉ part)

include hparts

theorem faithful_of_parseKind {kind : SchemaNodeKind} (h : parseKind codec parts kind = some id) :
    Faithful codec id := by
  cases kind with
  | collectionChild =>
    simp only [parseKind, bind_eq_bind, bind_eq_some_iff, Option.some.injEq] at h
    obtain ⟨u, -, a, ha, b, hb, c, hc, d, -, rfl⟩ := h
    exact ⟨hparts 2 a (by decide) ha, hparts 3 b (by decide) hb, hparts 4 c (by decide) hc⟩
  | scriptsFolder =>
    cases h
    trivial
  | scriptFile | scriptsRoot =>
    simp only [parseKind, Option.ite_none_left_eq_some, Option.some.injEq] at h
    obtain ⟨hpath, rfl⟩ := h
    exact hpath
  | secretPath =>
    simp only [parseKind, bind_eq_bind, bind_eq_some_iff,
      Option.ite_none_left_eq_some, Option.some.injEq] at h
    obtain ⟨u, -, a, ha, -, rfl⟩ := h
    exact hparts 2 a (by decide) ha
  | _ =>
    -- the other arms read ids and names that come before the last part
    simp only [parseKind, ofProfile, ofName, ofNames, ofThreeNames, ofIds, ofNameIn, ofNamesIn,
      bind_eq_bind, bind_eq_some_iff, Option.some.injEq] at h
    have hname := fun i hi a => hparts i a hi
    first
    | obtain ⟨u, -, a, ha, b, hb, c, hc, rfl⟩ := h
      simp [Faithful, fields, codec.bar_not_mem, hname 2 (by decide) a ha,
        hname 3 (by decide) b hb, hname 4 (by decide) c hc]
    | obtain ⟨u, -, a, ha, b, hb, rfl⟩ := h
      simp +contextual [Faithful, fields, codec.bar_not_mem, hname 2 (by decide) a ha,
        hname 3 (by decide) b hb, hname 4 (by decide)]
    | obtain ⟨u, -, a, ha, rfl⟩ := h
      simp +contextual [Faithful, fields, codec.bar_not_mem, hname 2 (by decide) a ha,
        hname 3 (by decide)]
    | obtain ⟨u, -, rfl⟩ := h
      simp [Faithful, fields, codec.bar_not_mem]
    | obtain ⟨u, -, v, -, rfl⟩ := h
      simp [Faithful, fields, codec.bar_not_mem]

end

variable {id : SchemaNodeId U}

/-- Every id that is read is faithful. -/
theorem faithful_of_fromStr {s : Text} (h : fromStr codec s = .ok id) : Faithful codec id := by
  simp only [fromStr] at h
  split at h
  next parsed hparsed =>
    cases h
    simp only [bind_eq_bind, bind_eq_some_iff, Option.ite_none_left_eq_some]
      at hparsed
    obtain ⟨-, -, kind, -, -, hparse⟩ := hparsed
    exact faithful_of_parseKind (fun i part hi hpart => not_mem_of_splitN hpart (by omega)) hparse
  next => cases h

/-! ## What is faithful is read -/

/-- An id is read from the parts that its variant wants. -/
theorem fromStr_of_parts {s : Text} {rest : List Text}
    (hsplit : splitN '|' 6 s = id.kind.tag :: rest) (hrest : rest ≠ [] ∨ id.kind = .scriptsFolder)
    (hparse : parseKind codec (id.kind.tag :: rest) id.kind = some id) :
    fromStr codec s = .ok id := by
  have henough : ¬ ((id.kind.tag :: rest).length < 2 ∧ id.kind ≠ .scriptsFolder) := by
    rintro ⟨hshort, hkind⟩
    rw [List.length_cons] at hshort
    exact hrest.resolve_right hkind (List.length_eq_zero_iff.mp (by omega))
  simp only [fromStr, hsplit, List.getElem?_cons_zero, bind_eq_bind, Option.bind_some,
    SchemaNodeKind.ofTag_tag, if_neg henough, hparse]

theorem length_fields_le (codec : UuidText U) (id : SchemaNodeId U) :
    (id.fields codec).length ≤ 5 := by
  have hoption : ∀ database : Option Text, database.toList.length ≤ 1 := by
    intro database
    cases database <;> simp
  cases id <;> simp only [fields, List.length_append, List.length_cons,
    List.length_nil] <;> first | omega | specialize hoption ‹Option Text›; omega

/-- The parts of an id none of whose fields holds a bar are its fields. -/
theorem splitN_display (h : ∀ field ∈ id.fields codec, '|' ∉ field) :
    splitN '|' 6 (id.display codec) = id.kind.tag :: id.fields codec := by
  have hall : ∀ part ∈ id.kind.tag :: id.fields codec, '|' ∉ part := by
    intro part hpart
    rcases List.mem_cons.mp hpart with rfl | hfield
    · exact id.kind.bar_not_mem_tag
    · exact h part hfield
  refine splitN_join (by simp) ?_ (fun part hpart => hall part (List.dropLast_subset _ hpart))
    (fun part hpart => .inr (hall part (List.mem_of_getLast? hpart)))
  have := length_fields_le codec id
  simp only [List.length_cons]
  omega

/-- A script's path is joined again from its parts. -/
theorem splitN_display_path {path : Text} (h : id.fields codec = [path]) :
    splitN '|' 6 (id.display codec) = id.kind.tag :: splitN '|' 5 path := by
  rw [display, h, join_cons _ (by simp), join_singleton]
  exact splitN_append 4 path id.kind.bar_not_mem_tag

theorem fromStr_display_of_faithful (h : Faithful codec id) :
    fromStr codec (id.display codec) = .ok id := by
  have hid := codec.parse_format
  have hbar := codec.bar_not_mem
  have hoption : ∀ database : Option Text, database.toList[0]? = database := by
    intro database
    cases database <;> rfl
  cases id with
  | scriptsFolder path =>
    cases path with
    | none => exact fromStr_of_parts (splitN_display (by simp [fields])) (.inr rfl) rfl
    | some path =>
      refine fromStr_of_parts (splitN_display_path rfl) (.inr rfl) ?_
      simp [parseKind, kind, splitN_ne_nil, join_splitN]
  | scriptFile path | scriptsRoot path =>
    have hpath : path ≠ [] := h
    refine fromStr_of_parts (splitN_display_path rfl) (.inl (splitN_ne_nil 4 path)) ?_
    simp [parseKind, kind, join_splitN, hpath]
  | secretPath profileId storeId path =>
    have hsplit : splitN '|' 6 ((SchemaNodeId.secretPath profileId storeId path).display codec) =
        SchemaNodeKind.secretPath.tag :: codec.format profileId :: storeId :: splitN '|' 3 path := by
      simp only [display, fields, kind]
      rw [join_cons _ (by simp), join_cons _ (by simp), join_cons _ (by simp), join_singleton,
        splitN_append _ _ (SchemaNodeKind.bar_not_mem_tag _), splitN_append _ _ (hbar profileId),
        splitN_append _ _ h]
    refine fromStr_of_parts hsplit (.inl (by simp)) ?_
    simp [parseKind, kind, uuidAt, hid, splitN_ne_nil, join_splitN]
  | collectionChild profileId database collection childId name =>
    obtain ⟨hdatabase, hcollection, hchild⟩ := h
    refine fromStr_of_parts (splitN_join (by simp) (by simp [fields]) ?_
      (fun _ _ => .inl rfl)) (.inl (by simp [fields])) ?_
    · simp [fields, SchemaNodeKind.bar_not_mem_tag, hbar, hdatabase, hcollection, hchild]
    · simp [fields, kind, parseKind, uuidAt, hid]
  | _ =>
    refine fromStr_of_parts (splitN_display h) (.inl (by simp [fields])) ?_
    simp [fields, kind, parseKind, ofProfile, ofName, ofNames,
      ofThreeNames, ofIds, ofNameIn, ofNamesIn, uuidAt, hid, hoption]

/-! ## Ids and texts -/

/-- **Faithful ids.** An id is read back as it was written exactly if it is
faithful, and no two faithful ids share a text. -/
theorem fromStr_display_iff (codec : UuidText U) :
    (∀ id : SchemaNodeId U, fromStr codec (id.display codec) = .ok id ↔ Faithful codec id) ∧
    ∀ id other : SchemaNodeId U, Faithful codec id → Faithful codec other →
      id.display codec = other.display codec → id = other := by
  refine ⟨fun id => ⟨faithful_of_fromStr, fromStr_display_of_faithful⟩, ?_⟩
  intro id other hid hother hsame
  have hread := fromStr_display_of_faithful hid
  rw [hsame, fromStr_display_of_faithful hother] at hread
  exact (Except.ok.inj hread).symm

/-- A table whose name holds a bar has the text of another table, in a database,
and is read back as that one. -/
theorem fromStr_display_bar (codec : UuidText U) (profileId : U) :
    let named : SchemaNodeId U := .table profileId none "public".toList "a|b".toList
    let located : SchemaNodeId U := .table profileId (some "b".toList) "public".toList "a".toList
    named ≠ located ∧ named.display codec = located.display codec ∧
      fromStr codec (named.display codec) = .ok located := by
  intro named located
  have hsame : named.display codec = located.display codec := by
    simp [named, located, display, fields, kind, join]
  have hfaithful : Faithful codec located := by
    show ∀ field ∈ [codec.format profileId, "public".toList, "a".toList] ++ ["b".toList], '|' ∉ field
    simp [codec.bar_not_mem]
  refine ⟨by simp [named, located], hsame, ?_⟩
  exact fromStr_display_of_faithful hfaithful

/-- So it is under the nil id. -/
theorem table_name_with_bar :
    let named := .table nilUuid none "public".toList "a|b".toList
    let located := .table nilUuid (some "b".toList) "public".toList "a".toList
    named ≠ located ∧ named.display .hyphenated = located.display .hyphenated ∧
      fromStr .hyphenated (named.display .hyphenated) = .ok located :=
  fromStr_display_bar .hyphenated nilUuid

end Dbflux.Schema

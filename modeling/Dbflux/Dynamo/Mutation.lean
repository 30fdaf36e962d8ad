import Dbflux.Dynamo.Collect

/-!
# DynamoDB mutations of one item

Models of `update_document` and `delete_document` for one item without upsert
(`dbflux_driver_dynamodb/src/driver.rs`, lines 1072–1144), of
`extract_key_map_from_filter` (lines 3434–3472) and of
`build_update_expression_from_json` (lines 3661–3728). Each assignment of the update
expression has tokens of its own, so it is given by the field and the value they stand for.
The database of a request is left out; one that is not the default is refused before.

`UpdateItem` and `DeleteItem` act as documented: without a condition, and an update of a
missing item creates it. What the service takes for the key of an item, and the form in which
it keeps a number, are parameters.

Results:
* `mutation_respects_iff`: when the table and the reported count are what the filter asks for.
-/

namespace Dbflux.Dynamo

open Dbflux.Lib

/-- The errors of a mutation. -/
inductive MutationError
  | queryFailed (message : Text)
  | notSupported (message : Text)

/-- `DbError::query_failed`. -/
def mutationFailed {α : Type} (message : Text) : Except MutationError α :=
  .error (.queryFailed message)

/-- A key attribute of the filter. -/
def keyAttribute (members : Members) (part : String) (name : Text) :
    Except MutationError (Text × AttributeValue) :=
  match members.lookup name with
  | none => mutationFailed (("DynamoDB mutation requires " ++ part ++ " key '").toList ++ name ++
      "' in filter".toList)
  | some value => .ok (name, jsonValueToAttributeValue value)

/-- `extract_key_map_from_filter` (lines 3434–3472). -/
def extractKeyMapFromFilter (schema : KeySchema) : Json → Except MutationError KeyMap
  | .object members =>
    match schema.partitionKey with
    | none => mutationFailed
        "Table metadata is missing a partition key; cannot resolve item identity".toList
    | some partitionKey => do
      let partition ← keyAttribute members "partition" partitionKey
      match schema.sortKey with
      | none => return [partition]
      | some sortKey => return [partition, ← keyAttribute members "sort" sortKey]
  | _ => mutationFailed "DynamoDB key filter must be a JSON object".toList

/-- A turn of the loop of `build_update_expression_from_json`. -/
def assignment (schema : KeySchema) (member : Text × Json) :
    Except MutationError (Text × AttributeValue) :=
  if startsWithDollar member.1 then
    .error (.notSupported (("DynamoDB update supports only plain field updates and optional " ++
      "'$set'; operator '").toList ++ member.1 ++ "' is not supported".toList))
  else if schema.partitionKey = some member.1 ∨ schema.sortKey = some member.1 then
    mutationFailed ("DynamoDB key field '".toList ++ member.1 ++
      "' cannot be updated; provide it in the filter instead".toList)
  else .ok (member.1, jsonValueToAttributeValue member.2)

/-- `build_update_expression_from_json` (lines 3661–3728). -/
def buildUpdateExpressionFromJson (schema : KeySchema) :
    Json → Except MutationError (List (Text × AttributeValue))
  | .object root => do
    let set ← match getMember "$set" root with
      | some (.object members) => .ok members
      | some _ => mutationFailed "$set must be a JSON object".toList
      | none => .ok root
    if set.isEmpty then
      mutationFailed "DynamoDB update payload must include at least one field".toList
    else set.mapM (assignment schema)
  | _ => mutationFailed "DynamoDB update payload must be a JSON object".toList

/-- The item behind a `SET` expression. -/
def Service.assign (service : Service) (assignments : List (Text × AttributeValue)) (item : Item) :
    Item :=
  assignments.foldl (fun item set => Function.update item set.1 (some (service.stored set.2))) item

section Table

variable {K : Type} [DecidableEq K] (service : Service) (identify : KeyMap → Option K)
  (schema : KeySchema) (filter update : Json) (table : K → Option Item)

/-- A request to the service that gives an item a new content, or none. -/
def mutateItem (content : KeyMap → Option Item → Option Item) (keyMap : KeyMap) :
    Except MutationError (K → Option Item) :=
  match identify keyMap with
  | none => mutationFailed "The provided key element does not match the schema".toList
  | some key => .ok (Function.update table key (content keyMap (table key)))

/-- `update_document` (lines 1072–1091), neither many nor upsert. -/
def updateDocument : Except MutationError ((K → Option Item) × ℕ) := do
  let keyMap ← extractKeyMapFromFilter schema filter
  let assignments ← buildUpdateExpressionFromJson schema update
  let after ← mutateItem identify table (fun keyMap item =>
    some (service.assign assignments (item.getD fun name =>
      (keyMap.lookup name).map service.stored))) keyMap
  return (after, 1)

/-- `delete_document` (lines 1127–1144), not many. -/
def deleteDocument : Except MutationError ((K → Option Item) × ℕ) := do
  let keyMap ← extractKeyMapFromFilter schema filter
  let after ← mutateItem identify table (fun _ _ => none) keyMap
  return (after, 1)

/-- Only items that satisfy the filter have changed, as many as are reported. -/
def Respects (after : K → Option Item) (count : ℕ) : Prop :=
  (∀ key, after key ≠ table key →
    ∃ item, table key = some item ∧ service.matchesFilter item filter) ∧
  {key | after key ≠ table key}.ncard = count

theorem respects_update_iff (key : K) (content : Option Item) :
    Respects service filter table (Function.update table key content) 1 ↔ content ≠ table key ∧
        ∃ item, table key = some item ∧ service.matchesFilter item filter := by
  have hchanged : ∀ other, Function.update table key content other ≠ table other ↔
      other = key ∧ content ≠ table key := by
    intro other
    by_cases hother : other = key
    · subst hother
      simp
    · simp [hother]
  simp only [Respects, hchanged]
  by_cases hcontent : content = table key
  · simp [hcontent]
  · simp [hcontent]

variable {identify schema filter update table}

theorem mutateItem_ok (content : KeyMap → Option Item → Option Item) {keyMap : KeyMap} {key : K}
    (h : identify keyMap = some key) : mutateItem identify table content keyMap =
      .ok (Function.update table key (content keyMap (table key))) := by
  rw [mutateItem, h]

/-- **When a mutation of one item respects its filter.** An update does exactly if the item
exists, satisfies the filter and is not what the update sets already, numbers in the form
the service keeps; a delete exactly if the item exists and satisfies the filter. An update
whose payload is refused returns that error and sends nothing. -/
theorem mutation_respects_iff {keyMap : KeyMap} {key : K}
    (hkeyMap : extractKeyMapFromFilter schema filter = .ok keyMap)
    (hkey : identify keyMap = some key) :
    (∀ assignments, buildUpdateExpressionFromJson schema update = .ok assignments →
      ∃ after count, updateDocument service identify schema filter update table =
          .ok (after, count) ∧
        (Respects service filter table after count ↔ ∃ item, table key = some item ∧
          service.matchesFilter item filter ∧ service.assign assignments item ≠ item)) ∧
    (∀ error, buildUpdateExpressionFromJson schema update = .error error →
      updateDocument service identify schema filter update table = .error error) ∧
    ∃ after count, deleteDocument identify schema filter table = .ok (after, count) ∧
      (Respects service filter table after count ↔ ∃ item, table key = some item ∧
        service.matchesFilter item filter) := by
  unfold updateDocument deleteDocument
  rw [hkeyMap]
  refine ⟨?_, ?_, ?_⟩
  · intro assignments hassignments
    rw [hassignments]
    refine ⟨_, 1, congrArg (Except.map (·, 1)) (mutateItem_ok _ hkey), ?_⟩
    rw [respects_update_iff]
    constructor
    · rintro ⟨hchanged, item, hitem, hmatches⟩
      refine ⟨item, hitem, hmatches, fun hsame => hchanged ?_⟩
      rw [hitem, Option.getD_some, hsame]
    · rintro ⟨item, hitem, hmatches, hchanged⟩
      refine ⟨fun hsame => hchanged ?_, item, hitem, hmatches⟩
      rw [hitem, Option.getD_some] at hsame
      exact Option.some.inj hsame
  · intro error herror
    rw [herror]
    rfl
  · refine ⟨_, 1, congrArg (Except.map (·, 1)) (mutateItem_ok _ hkey), ?_⟩
    rw [respects_update_iff]
    refine and_iff_right_of_imp ?_
    rintro ⟨item, hitem, -⟩
    simp [hitem]

end Table

/-- The key of a table with a string as its partition key. -/
def stringKey : KeyMap → Option Text
  | [(_, .s text)] => some text
  | _ => none

def stringSchema : KeySchema := ⟨some "id".toList, none⟩

def openFilter : Json :=
  .object [("id".toList, .string "a".toList), ("state".toList, .string "open".toList)]

def closing : Json := .object [("state".toList, .string "closed".toList)]

def openItem : Item := fun name =>
  if name = "id".toList then some (.s "a".toList)
  else if name = "state".toList then some (.s "open".toList)
  else none

/-- An item that satisfies the filter is updated. -/
theorem open_item_closed : ∃ after count,
    updateDocument plainService stringKey stringSchema openFilter closing
      (fun _ => some openItem) = .ok (after, count) ∧
    Respects plainService openFilter (fun _ => some openItem) after count := by
  have hkeyMap : extractKeyMapFromFilter stringSchema openFilter =
    .ok [("id".toList, .s "a".toList)] := rfl
  have hclosing : buildUpdateExpressionFromJson stringSchema closing =
    .ok [("state".toList, .s "closed".toList)] := rfl
  have hkey : stringKey [("id".toList, .s "a".toList)] = some "a".toList := rfl
  obtain ⟨after, count, hupdate, hrespects⟩ :=
    (mutation_respects_iff plainService hkeyMap hkey).1 _ hclosing
  refine ⟨after, count, hupdate, hrespects.mpr ⟨openItem, rfl, by decide +kernel, fun hsame => ?_⟩⟩
  have hstate := congrFun hsame "state".toList
  cases hstate

/-- A missing item is created by an update, and counted by a delete. -/
theorem missing_item_created :
    (∃ after, updateDocument plainService stringKey stringSchema openFilter closing
      (fun _ => none) = .ok (after, 1) ∧ (after "a".toList).isSome) ∧
    ∃ after, deleteDocument stringKey stringSchema openFilter (fun _ => none) =
      .ok (after, 1) ∧ after "a".toList = none :=
  ⟨⟨_, rfl, rfl⟩, _, rfl, rfl⟩

end Dbflux.Dynamo

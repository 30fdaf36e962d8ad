import Dbflux.Lib.BoolExpr
import Dbflux.Lib.Ensures
import Dbflux.Lib.Json

/-!
# Filters of DynamoDB operations on many items

Models of `decide_read_strategy`, `residual_filter`, `resolve_filter_execution`,
`translate_filter_object` and what it calls, `extract_eq_filter_value` and
`build_sort_key_condition` (`dbflux_driver_dynamodb/src/driver.rs`, lines 2433–2856),
of the client's evaluation of a filter (lines 1793–1990) and of the loop that collects keys
(lines 1735–1778). An expression is the list of its words, with each comparison one word. The
options of a read that do not change which items it gives (index, consistency, direction) are
left out, since update-many and delete-many use their defaults. How numbers are parsed and
compared as `f64` is a parameter.

The service evaluates key conditions and filter expressions as documented: `AND` before `OR`,
comparisons on the attribute a path leads to, and no key attribute in the filter expression of
a query. What a comparison gives on an attribute is a parameter of it.
-/

namespace Dbflux.Dynamo

open Dbflux.Lib

/-! ## Attribute values -/

/-- `aws_sdk_dynamodb::types::AttributeValue`. A number is its text. -/
inductive AttributeValue
  | s (text : Text)
  | n (number : Text)
  | bool (value : Bool)
  | null (value : Bool)
  | m (members : List (Text × AttributeValue))
  | l (items : List AttributeValue)
  | b (bytes : List UInt8)
  | ss (strings : List Text)
  | ns (numbers : List Text)
  | bs (blobs : List (List UInt8))

mutual

/-- `json_value_to_attribute_value` (lines 3369–3392), which never fails. -/
def jsonValueToAttributeValue : Json → AttributeValue
  | .null => .null true
  | .bool value => .bool value
  | .number text => .n text
  | .string text => .s text
  | .array items => .l (jsonItemsToAttributeValues items)
  | .object members => .m (jsonMembersToAttributeValues members)

def jsonItemsToAttributeValues : List Json → List AttributeValue
  | [] => []
  | item :: rest => jsonValueToAttributeValue item :: jsonItemsToAttributeValues rest

def jsonMembersToAttributeValues : List (Text × Json) → List (Text × AttributeValue)
  | [] => []
  | (key, value) :: rest =>
    (key, jsonValueToAttributeValue value) :: jsonMembersToAttributeValues rest

end

/-- `DbError::query_failed`. -/
inductive DbError
  | queryFailed (message : Text)

def queryFailed {α : Type} (message : String) : Except DbError α :=
  .error (.queryFailed message.toList)

/-- What `i64` and `f64` do with the text of a number. -/
structure Numbers where
  /-- The JSON number of a DynamoDB number, or why it has none. -/
  toJson : Text → Except DbError Text
  /-- `f64::partial_cmp` of two JSON numbers. -/
  partialCmp : Text → Text → Option Ordering

/-- A JSON array of the bytes. -/
def bytesToJson (bytes : List UInt8) : Json :=
  .array (bytes.map fun byte => .number (toString byte.toNat).toList)

mutual

/-- `attribute_value_to_json` (lines 1990–2106). -/
def attributeValueToJson (numbers : Numbers) : AttributeValue → Except DbError Json
  | .s text => .ok (.string text)
  | .n number => (numbers.toJson number).map .number
  | .bool value => .ok (.bool value)
  | .null true => .ok .null
  | .null false => queryFailed "Unsupported DynamoDB attribute value in filter evaluation"
  | .m members => (attributeMembersToJson numbers members).map .object
  | .l items => (attributeItemsToJson numbers items).map .array
  | .b bytes => .ok (bytesToJson bytes)
  | .ss strings => .ok (.array (strings.map .string))
  | .ns texts => (texts.mapM numbers.toJson).map fun texts => .array (texts.map .number)
  | .bs blobs => .ok (.array (blobs.map bytesToJson))

def attributeItemsToJson (numbers : Numbers) : List AttributeValue → Except DbError (List Json)
  | [] => .ok []
  | item :: rest => do
    let first ← attributeValueToJson numbers item
    let others ← attributeItemsToJson numbers rest
    return first :: others

def attributeMembersToJson (numbers : Numbers) :
    List (Text × AttributeValue) → Except DbError (List (Text × Json))
  | [] => .ok []
  | (key, value) :: rest => do
    let first ← attributeValueToJson numbers value
    let others ← attributeMembersToJson numbers rest
    return (key, first) :: others

end

/-- An item is a map of attributes. -/
abbrev Item := Text → Option AttributeValue

/-- `DynamoTableKeySchema`. -/
structure KeySchema where
  partitionKey : Option Text
  sortKey : Option Text

/-- The members of a JSON map. -/
abbrev Members := List (Text × Json)

/-- `serde_json::Map::get`. -/
def getMember (key : String) (members : Members) : Option Json := members.lookup key.toList

/-! ## Comparisons and expressions -/

/-- The operators of a field. -/
inductive Comparator
  | eq
  | ne
  | gt
  | gte
  | lt
  | lte
  | beginsWith
deriving DecidableEq

def Comparator.operator : Comparator → Text
  | .eq => "$eq".toList
  | .ne => "$ne".toList
  | .gt => "$gt".toList
  | .gte => "$gte".toList
  | .lt => "$lt".toList
  | .lte => "$lte".toList
  | .beginsWith => "$begins_with".toList

def comparatorOf (operator : Text) : Option Comparator :=
  [Comparator.eq, .ne, .gt, .gte, .lt, .lte, .beginsWith].find? fun c =>
    decide (c.operator = operator)

/-- The names `#pk`, `#sk` and `#n0`, `#n1`, … of an expression. -/
inductive NameToken
  | pk
  | sk
  | n (index : ℕ)
deriving DecidableEq

/-- The values `:pk`, `:sk`, `:sk_gt`, … and `:v0`, `:v1`, … of an expression. -/
inductive ValueToken
  | pk
  | sk
  | skGt
  | skGte
  | skLt
  | skLte
  | skPrefix
  | v (index : ℕ)
deriving DecidableEq

/-- A comparison of the attribute at a path with a value, such as `#n0.#n1 >= :v2`. -/
structure Condition where
  path : List NameToken
  comparator : Comparator
  value : ValueToken
deriving DecidableEq

abbrev Expression := List (BoolToken Condition)

/-- What the names and the values of an expression stand for. -/
structure Bindings where
  names : List (NameToken × Text)
  values : List (ValueToken × AttributeValue)

def Bindings.append (first second : Bindings) : Bindings :=
  ⟨first.names ++ second.names, first.values ++ second.values⟩

/-! ## The translation of a filter -/

/-- `DynamoFilterTranslationError` (lines 2519–2522). -/
inductive TranslationError
  | unsupported (reason : Text)
  | invalid (reason : Text)

/-- `DynamoFilterTranslationState` (lines 2525–2531). -/
structure TranslationState where
  nextNameToken : ℕ
  nextValueToken : ℕ
  nameTokenBySegment : List (Text × NameToken)
  bindings : Bindings

def TranslationState.initial : TranslationState := ⟨0, 0, [], ⟨[], []⟩⟩

/-- One segment of `bind_attribute_path`. -/
def bindSegment (st : TranslationState) (segment : Text) : NameToken × TranslationState :=
  match st.nameTokenBySegment.lookup segment with
  | some token => (token, st)
  | none =>
    let token := NameToken.n st.nextNameToken
    (token, { st with
        nextNameToken := st.nextNameToken + 1
        nameTokenBySegment := st.nameTokenBySegment ++ [(segment, token)]
        bindings := { st.bindings with names := st.bindings.names ++ [(token, segment)] } })

/-- The loop of `bind_attribute_path` (lines 2746–2777). -/
def bindSegments (path : Text) : List Text → TranslationState →
    Except TranslationError (List NameToken × TranslationState)
  | [], st => .ok ([], st)
  | segment :: rest, st =>
    if trim segment = [] then
      .error (.unsupported ("attribute path '".toList ++ path ++ "' is invalid".toList))
    else do
      let (token, st) := bindSegment st segment
      let (tokens, st) ← bindSegments path rest st
      return (token :: tokens, st)

def bindAttributePath (path : Text) (st : TranslationState) :
    Except TranslationError (List NameToken × TranslationState) :=
  bindSegments path (path.splitOn '.') st

/-- `bind_attribute_value` (lines 2779–2796). -/
def bindAttributeValue (value : Json) (st : TranslationState) : ValueToken × TranslationState :=
  let token := ValueToken.v st.nextValueToken
  (token, { st with
      nextValueToken := st.nextValueToken + 1
      bindings := { st.bindings with
        values := st.bindings.values ++ [(token, jsonValueToAttributeValue value)] } })

def Json.isString : Json → Bool
  | .string _ => true
  | _ => false

/-- `translate_field_operator` (lines 2699–2744). -/
def translateFieldOperator (path : List NameToken) (operator : Text) (value : Json)
    (st : TranslationState) : Except TranslationError (Expression × TranslationState) :=
  match comparatorOf operator with
  | none => .error (.unsupported
      ("operator '".toList ++ operator ++ "' is not translatable".toList))
  | some comparator =>
    if comparator = .beginsWith ∧ Json.isString value = false then
      .error (.invalid "$begins_with requires a string comparison value".toList)
    else
      let (token, st) := bindAttributeValue value st
      .ok ([.atom ⟨path, comparator, token⟩], st)

def translateFieldOperators (path : List NameToken) : Members → TranslationState →
    Except TranslationError (List Expression × TranslationState)
  | [], st => .ok ([], st)
  | (operator, value) :: rest, st => do
    let (clause, st) ← translateFieldOperator path operator value st
    let (clauses, st) ← translateFieldOperators path rest st
    return (clause :: clauses, st)

def startsWithDollar (key : Text) : Bool := decide (key.head? = some '$')

/-- The operators of a field, if its value is an object with some. -/
def operatorsOf : Json → Option Members
  | .object members =>
    if members.any fun member => startsWithDollar member.1 then some members else none
  | _ => none

/-- `translate_field_filter` (lines 2671–2697). -/
def translateFieldFilter (field : Text) (expected : Json) (st : TranslationState) :
    Except TranslationError (Expression × TranslationState) := do
  let (path, st) ← bindAttributePath field st
  match operatorsOf expected with
  | some members =>
    let (clauses, st) ← translateFieldOperators path members st
    return (List.intercalate [.and] clauses, st)
  | none =>
    let (token, st) := bindAttributeValue expected st
    return ([.atom ⟨path, .eq, token⟩], st)

/-- The two connectives. -/
inductive Connective
  | and
  | or
deriving DecidableEq

def Connective.token : Connective → BoolToken Condition
  | .and => .and
  | .or => .or

/-- `$and` or `$or`. -/
def Connective.key : Connective → Text
  | .and => "$and".toList
  | .or => "$or".toList

def connectiveOf (field : Text) : Option Connective :=
  if field = "$and".toList then some .and
  else if field = "$or".toList then some .or
  else none

/-- The end of `translate_logical_filter`: one clause stays as it is. -/
def joinClauses (connective : Connective) : List Expression → Expression
  | [clause] => clause
  | clauses => .left :: (List.intercalate [connective.token] clauses ++ [.right])

/-- A field of a filter object that is no connective. -/
def translateField (field : Text) (value : Json) (st : TranslationState) :
    Except TranslationError (Expression × TranslationState) :=
  if startsWithDollar field then
    .error (.unsupported ("top-level operator '".toList ++ field ++
      "' is not supported for server-side translation".toList))
  else translateFieldFilter field value st

mutual

/-- `translate_filter_object` (lines 2595–2634). -/
def translateFilterObject : Json → TranslationState →
    Except TranslationError (Expression × TranslationState)
  | .object members, st =>
    if members.isEmpty then
      .error (.unsupported "empty filter object is not translatable".toList)
    else do
      let (clauses, st) ← translateMembers members st
      return (List.intercalate [.and] clauses, st)
  | _, _ => .error (.invalid "DynamoDB filter must be a JSON object".toList)

/-- The loop over the fields. -/
def translateMembers : Members → TranslationState →
    Except TranslationError (List Expression × TranslationState)
  | [], st => .ok ([], st)
  | (field, value) :: rest, st => do
    let (clause, st) ← (match connectiveOf field with
      | some connective => translateLogicalFilter connective value st
      | none => translateField field value st)
    let (clauses, st) ← translateMembers rest st
    return (clause :: clauses, st)

/-- `translate_logical_filter` (lines 2636–2669). -/
def translateLogicalFilter (connective : Connective) : Json → TranslationState →
    Except TranslationError (Expression × TranslationState)
  | .array items, st =>
    if items.isEmpty then
      .error (.invalid (connective.key ++ " requires at least one filter object".toList))
    else do
      let (clauses, st) ← translateClauses items st
      return (joinClauses connective clauses, st)
  | _, _ => .error (.invalid (connective.key ++ " requires an array of filter objects".toList))

def translateClauses : List Json → TranslationState →
    Except TranslationError (List Expression × TranslationState)
  | [], st => .ok ([], st)
  | item :: rest, st => do
    let (clause, st) ← translateFilterObject item st
    let (clauses, st) ← translateClauses rest st
    return (clause :: clauses, st)

end

/-! ## The client's filter -/

mutual

/-- `==` on JSON values; the members of an object have no order. -/
def sameJson : Json → Json → Bool
  | .null, .null => true
  | .bool a, .bool b => a == b
  | .number a, .number b => a == b
  | .string a, .string b => a == b
  | .array a, .array b => sameItems a b
  | .object a, .object b => a.length == b.length && membersWithin a b
  | _, _ => false

def sameItems : List Json → List Json → Bool
  | [], [] => true
  | a :: as, b :: bs => sameJson a b && sameItems as bs
  | _, _ => false

/-- Every member is among the others, in whatever order. -/
def membersWithin : Members → Members → Bool
  | [], _ => true
  | (key, value) :: rest, others =>
    (match others.lookup key with
      | some other => sameJson value other
      | none => false) && membersWithin rest others

end

/-- `compare_json_partial_order` (lines 1972–1988). -/
def compareJsonPartialOrder (numbers : Numbers) (actual expected : Json) :
    Except DbError (Option Ordering) :=
  match actual, expected with
  | .number left, .number right => .ok (numbers.partialCmp left right)
  | .string left, .string right => .ok (some (compareOfLessAndEq left right))
  | _, _ => queryFailed "DynamoDB comparison operators require comparable string or numeric values"

/-- One operator of `evaluate_filter_operators` (lines 1910–1962). -/
def evaluateOperator (numbers : Numbers) (actual : Json) (comparator : Comparator)
    (expected : Json) : Except DbError Bool :=
  match comparator with
  | .eq => .ok (sameJson actual expected)
  | .ne => .ok (!sameJson actual expected)
  | .gt => (compareJsonPartialOrder numbers actual expected).map (· == some .gt)
  | .gte => (compareJsonPartialOrder numbers actual expected).map fun ordering =>
      ordering == some .gt || ordering == some .eq
  | .lt => (compareJsonPartialOrder numbers actual expected).map (· == some .lt)
  | .lte => (compareJsonPartialOrder numbers actual expected).map fun ordering =>
      ordering == some .lt || ordering == some .eq
  | .beginsWith =>
    match actual, expected with
    | .string text, .string start => .ok (start.isPrefixOf text)
    | .string _, _ => queryFailed
        "$begins_with requires a string comparison value for DynamoDB filtering"
    | _, _ => queryFailed
        "$begins_with requires a string field value for DynamoDB filtering"

/-- `evaluate_filter_operators`. -/
def evaluateFilterOperators (numbers : Numbers) (actual : Json) : Members → Except DbError Bool
  | [] => .ok true
  | (operator, expected) :: rest =>
    match comparatorOf operator with
    | none => .error (.queryFailed
        ("Unsupported DynamoDB filter operator '".toList ++ operator ++ "'".toList))
    | some comparator => do
      let holds ← evaluateOperator numbers actual comparator expected
      if holds then evaluateFilterOperators numbers actual rest else return false

/-- A field of `evaluate_filter_object` that is no connective (lines 1877–1901). -/
def evaluateField (numbers : Numbers) (item : Item) (field : Text) (expected : Json) :
    Except DbError Bool :=
  if startsWithDollar field then .error (.queryFailed
    ("Unsupported DynamoDB top-level filter operator '".toList ++ field ++ "'".toList))
  else match item field with
    | none => .ok false
    | some actual => do
      let actualJson ← attributeValueToJson numbers actual
      match operatorsOf expected with
      | some members => evaluateFilterOperators numbers actualJson members
      | none => return sameJson actualJson expected

def requiresArray {α : Type} (connective : Connective) : Except DbError α :=
  .error (.queryFailed (connective.key ++ " requires an array of filter objects".toList))

mutual

/-- `evaluate_filter_object` (lines 1833–1908). -/
def evaluateFilterObject (numbers : Numbers) (item : Item) : Members → Except DbError Bool
  | [] => .ok true
  | (field, value) :: rest => do
    let holds ← (match connectiveOf field with
      | some connective => evaluateLogical numbers item connective value
      | none => evaluateField numbers item field value)
    if holds then evaluateFilterObject numbers item rest else return false

def evaluateLogical (numbers : Numbers) (item : Item) (connective : Connective) :
    Json → Except DbError Bool
  | .array items => evaluateClauses numbers item connective items
  | _ => requiresArray connective

/-- The clauses of `$and` up to the first that fails, those of `$or` up to the first that
holds. -/
def evaluateClauses (numbers : Numbers) (item : Item) (connective : Connective) :
    List Json → Except DbError Bool
  | [] => .ok (connective == .and)
  | clause :: rest => do
    let holds ← evaluateClause numbers item connective clause
    if holds == (connective == .and) then evaluateClauses numbers item connective rest
    else return holds

def evaluateClause (numbers : Numbers) (item : Item) (connective : Connective) :
    Json → Except DbError Bool
  | .object members => evaluateFilterObject numbers item members
  | _ => requiresArray connective

end

/-! ## The plan -/

/-- The key condition of a query. -/
structure KeyCondition where
  expression : Expression
  bindings : Bindings

/-- `DynamoReadStrategy`: a query has a key condition, a scan has none. -/
structure ReadStrategy where
  keyCondition : Option KeyCondition
  serverFilter : Option Expression
  filterBindings : Bindings
  clientFilter : Option Members

/-- `extract_eq_filter_value` (lines 2798–2804). -/
def extractEqFilterValue : Json → Option Json
  | .object members => getMember "$eq" members
  | value => some value

/-- The operators `build_sort_key_condition` looks for, in its order. -/
def sortKeyOperators : List (String × Comparator × ValueToken) :=
  [("$eq", .eq, .sk), ("$gt", .gt, .skGt), ("$gte", .gte, .skGte), ("$lt", .lt, .skLt),
    ("$lte", .lte, .skLte), ("$begins_with", .beginsWith, .skPrefix)]

/-- `build_sort_key_condition` (lines 2806–2856). -/
def buildSortKeyCondition : Json → Option (Comparator × ValueToken × Json)
  | .object members =>
    sortKeyOperators.findSome? fun (operator, comparator, token) =>
      (getMember operator members).map fun value => (comparator, token, value)
  | value => some (.eq, .sk, value)

/-- `residual_filter` (lines 2533–2555) of a filter object. -/
def residualFilter (members : Members) (consumed : List Text) : Option Members :=
  let kept := members.filter fun member => !consumed.contains member.1
  if kept.isEmpty then none else some kept

/-- `DynamoFilterFallbackPolicy`. -/
inductive FilterFallbackPolicy
  | clientSide
  | reject

/-- `resolve_filter_execution` (lines 2557–2593): the expression for the service with its
bindings, or the filter for the client. -/
def resolveFilterExecution (filter : Option Members) (policy : FilterFallbackPolicy)
    (operation : String) : Except DbError (Option Expression × Bindings × Option Members) :=
  match filter with
  | none => .ok (none, ⟨[], []⟩, none)
  | some members =>
    match translateFilterObject (.object members) .initial with
    | .ok (expression, st) => .ok (some expression, st.bindings, none)
    | .error (.unsupported reason) =>
      match policy with
      | .clientSide => .ok (none, ⟨[], []⟩, some members)
      | .reject => .error (.queryFailed ("DynamoDB ".toList ++ operation.toList ++
          " filter translation failed: ".toList ++ reason))
    | .error (.invalid reason) => .error (.queryFailed reason)

/-- The sort key's part of a key condition. -/
def sortKeyPart (schema : KeySchema) (members : Members) :
    Option (Text × Comparator × ValueToken × Json) := do
  let sortKey ← schema.sortKey
  let value ← members.lookup sortKey
  let (comparator, token, operand) ← buildSortKeyCondition value
  return (sortKey, comparator, token, operand)

/-- The partition key's part of a key condition. -/
def partitionKeyPart (schema : KeySchema) (members : Members) : Option (Text × Json) := do
  let partitionKey ← schema.partitionKey
  let value ← members.lookup partitionKey
  let operand ← extractEqFilterValue value
  return (partitionKey, operand)

def keyCondition (partition : Text × Json) (sort : Option (Text × Comparator × ValueToken × Json)) :
    KeyCondition :=
  let first : BoolToken Condition := .atom ⟨[.pk], .eq, .pk⟩
  match sort with
  | none => ⟨[first], [(.pk, partition.1)], [(.pk, jsonValueToAttributeValue partition.2)]⟩
  | some (sortKey, comparator, token, operand) =>
    ⟨[first, .and, .atom ⟨[.sk], comparator, token⟩], [(.pk, partition.1), (.sk, sortKey)],
      [(.pk, jsonValueToAttributeValue partition.2), (token, jsonValueToAttributeValue operand)]⟩

/-- `decide_read_strategy` (lines 2433–2501) for a filter object. -/
def decideReadStrategy (schema : KeySchema) (members : Members) (policy : FilterFallbackPolicy) :
    Except DbError ReadStrategy :=
  match partitionKeyPart schema members with
  | some partition => do
    let sort := sortKeyPart schema members
    let consumed := partition.1 :: (sort.map (·.1)).toList
    let (serverFilter, filterBindings, clientFilter) ←
      resolveFilterExecution (residualFilter members consumed) policy "query"
    return ⟨some (keyCondition partition sort), serverFilter, filterBindings, clientFilter⟩
  | none => do
    let (serverFilter, filterBindings, clientFilter) ←
      resolveFilterExecution (residualFilter members []) policy "scan"
    return ⟨none, serverFilter, filterBindings, clientFilter⟩

/-! ## The service and the page loop -/

/-- What the service does with attributes. -/
structure Service where
  /-- The member of a map attribute. -/
  nested : AttributeValue → Text → Option AttributeValue
  /-- A comparison on the attribute of an item, if it has it. -/
  compare : Comparator → Option AttributeValue → AttributeValue → Bool
  /-- What it keeps of a value: its numbers in their normal form. -/
  stored : AttributeValue → AttributeValue

/-- The attribute a path leads to. -/
def Service.attributeAt (service : Service) (item : Item) : List Text → Option AttributeValue
  | [] => none
  | name :: rest => (item name).bind fun value => rest.foldlM service.nested value

/-- A comparison of an expression; names and values must be bound. -/
def Service.condition (service : Service) (bindings : Bindings) (item : Item)
    (condition : Condition) : Option Bool := do
  let path ← condition.path.mapM fun token => bindings.names.lookup token
  let value ← bindings.values.lookup condition.value
  return service.compare condition.comparator (service.attributeAt item path) value

/-- Whether an item is in the answer to a read. -/
def Service.meets (service : Service) (strategy : ReadStrategy) (item : Item) : Option Bool := do
  let bindings := match strategy.keyCondition with
    | some key => key.bindings.append strategy.filterBindings
    | none => strategy.filterBindings
  let inKey ← (match strategy.keyCondition with
    | some key => BoolToken.evaluate (service.condition bindings item) key.expression
    | none => some true)
  let inFilter ← (match strategy.serverFilter with
    | some expression => BoolToken.evaluate (service.condition bindings item) expression
    | none => some true)
  return inKey && inFilter

/-- A query whose filter expression names a key attribute is refused. -/
def refused (schema : KeySchema) (strategy : ReadStrategy) : Bool :=
  strategy.keyCondition.isSome && strategy.serverFilter.isSome &&
    strategy.filterBindings.names.any fun name =>
      decide (some name.2 = schema.partitionKey ∨ some name.2 = schema.sortKey)

/-- The items of a page: those of the part of the table it goes through that meet the
request. -/
def Service.page (service : Service) (schema : KeySchema) (strategy : ReadStrategy)
    (part : List Item) : Except DbError (List Item) :=
  if refused schema strategy then
    queryFailed "Filter Expression can only contain non-primary key attributes"
  else match part.mapM fun item => (service.meets strategy item).map fun b => (b, item) with
    | none => queryFailed "Invalid expression"
    | some answers => .ok (answers.filterMap fun (b, item) => if b then some item else none)

/-- `apply_item_filter` (lines 1803–1820). -/
def applyItemFilter (numbers : Numbers) (filter : Option Members) : List Item →
    Except DbError (List Item)
  | [] => .ok []
  | item :: rest => do
    let holds ← (match filter with
      | none => .ok true
      | some members => evaluateFilterObject numbers item members)
    let others ← applyItemFilter numbers filter rest
    return if holds then item :: others else others

/-- The key of an item, as a map. -/
abbrev KeyMap := List (Text × AttributeValue)

/-- `extract_key_map_from_item` (lines 3474–3505). -/
def extractKeyMapFromItem (schema : KeySchema) (item : Item) : Except DbError KeyMap :=
  match schema.partitionKey with
  | none => queryFailed "Table metadata is missing a partition key; cannot resolve item identity"
  | some partitionKey =>
    match item partitionKey with
    | none => .error (.queryFailed ("DynamoDB item is missing required partition key '".toList ++
        partitionKey ++ "' while planning many-item mutation".toList))
    | some value =>
      match schema.sortKey with
      | none => .ok [(partitionKey, value)]
      | some sortKey =>
        match item sortKey with
        | none => .error (.queryFailed ("DynamoDB item is missing required sort key '".toList ++
            sortKey ++ "' while planning many-item mutation".toList))
        | some sortValue => .ok [(partitionKey, value), (sortKey, sortValue)]

/-- The loop of `collect_matching_key_maps` (lines 1752–1775) over the parts of the table that
the pages go through; the last page has no `LastEvaluatedKey`. -/
def collectPages (service : Service) (numbers : Numbers) (schema : KeySchema)
    (strategy : ReadStrategy) : List Item → List (List Item) → Except DbError (List KeyMap)
  | part, rest => do
    let items ← service.page schema strategy part
    let filtered ← applyItemFilter numbers strategy.clientFilter items
    let keys ← filtered.mapM (extractKeyMapFromItem schema)
    match rest with
    | [] => return keys
    | next :: others =>
      let more ← collectPages service numbers schema strategy next others
      return keys ++ more

/-- The keys that `plan_update_many_operation` and `plan_delete_many_operation` collect
(lines 1649–1732) when the service goes through the table in the parts `first :: others`. -/
def collectMatchingKeyMaps (service : Service) (numbers : Numbers) (schema : KeySchema)
    (members : Members) (first : List Item) (others : List (List Item)) :
    Except DbError (List KeyMap) := do
  let strategy ← decideReadStrategy schema members .clientSide
  collectPages service numbers schema strategy first others

end Dbflux.Dynamo

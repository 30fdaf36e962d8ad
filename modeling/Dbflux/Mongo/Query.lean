import Dbflux.Lib.Json
import Dbflux.Mongo.Bson

/-!
# Queries of the MongoDB driver

Models of `parse_query` and what it calls in
`dbflux_driver_mongodb/src/query_parser.rs` (lines 84–911), of `json_to_bson` in
`driver.rs` (lines 3393–3464) and of `normalize_relaxed_json` in
`dbflux_core/src/query/relaxed_json.rs` (lines 7–95). `serde_json`, numbers and
dates are parameters (`Wire`); an error is its message.
-/

namespace Dbflux.Mongo

open Dbflux.Lib Dbflux.Lib.ValueTree Dbflux.DocumentEdit

variable {L : Leaves}

/-- What reading a query takes from `serde_json`, `chrono` and the Unicode tables. -/
structure Wire (L : Leaves) where
  codec : JsonCodec
  /-- The message of `serde_json` for a text that is not JSON. -/
  jsonError : Text → Text
  /-- `Number::as_i64`, `Number::as_u64` and `Number::as_f64`. -/
  asI64 : Text → Option ℤ
  asU64 : Text → Option ℕ
  asF64 : Text → Option L.Float
  parseRfc3339 : Text → Except Text ℤ
  table : UnicodeTable

/-! ## JSON to BSON -/

/-- The text of a member. -/
def memberText (members : List (Text × Json)) (key : String) : Option Text :=
  (members.lookup key.toList).bind Json.string?

/-- The two objects that stand for a leaf (lines 3437–3455). -/
def extendedLeaf (w : Wire L) (members : List (Text × Json)) : Option (Except Text (Bson L)) :=
  match memberText members "$oid" with
  | some oid =>
    some (match L.parseObjectId oid with
      | .ok hex => .ok (leaf (.objectId hex))
      | .error e => .error ("Invalid ObjectId: ".toList ++ e))
  | none =>
    if members.length = 1 then
      (memberText members "$date").map fun date =>
        match w.parseRfc3339 date with
        | .ok millis => .ok (leaf (.dateTime millis))
        | .error e => .error ("Invalid date: ".toList ++ e)
    else none

/-- A string, or an object id in its hexadecimal form (lines 3422–3431). -/
def stringToBson (text : Text) : Bson L :=
  if text.length = 24 ∧ text.all isAsciiHexdigit then
    match L.parseObjectId text with
    | .ok hex => leaf (.objectId hex)
    | .error _ => leaf (.string text)
  else leaf (.string text)

mutual

/-- `json_to_bson` (lines 3409–3464). -/
def jsonToBson (w : Wire L) : Json → Except Text (Bson L)
  | .null => .ok (leaf .null)
  | .bool b => .ok (leaf (.boolean b))
  | .number text =>
    match w.asI64 text, w.asF64 text with
    | some i, _ => .ok (leaf (.int64 i))
    | none, some f => .ok (leaf (.double f))
    | none, none => .error "Invalid number".toList
  | .string text => .ok (stringToBson text)
  | .array items => do return array (← jsonItemsToBson w items)
  | .object members =>
    match extendedLeaf w members with
    | some result => result
    | none => do return document (← jsonMembersToBson w members)

def jsonItemsToBson (w : Wire L) : List Json → Except Text (List (Bson L))
  | [] => .ok []
  | item :: rest => do return (← jsonToBson w item) :: (← jsonItemsToBson w rest)

def jsonMembersToBson (w : Wire L) : List (Text × Json) → Except Text (Fields L)
  | [] => .ok []
  | (key, value) :: rest => do
    let bson ← jsonToBson w value
    return (key, bson) :: (← jsonMembersToBson w rest)

end

/-- `json_to_bson_doc` (lines 3393–3399). -/
def jsonToBsonDoc (w : Wire L) (json : Json) : Except Text (Fields L) := do
  match ← jsonToBson w json with
  | document fields => return fields
  | _ => throw "Expected BSON document".toList

/-- `json_array_to_bson_docs` (lines 3401–3407). -/
def jsonArrayToBsonDocs (w : Wire L) : Json → Except Text (List (Fields L))
  | .array items => items.mapM (jsonToBsonDoc w)
  | _ => .error "Expected array".toList

/-! ## Relaxed JSON -/

def apostrophe : Char := Char.ofNat 39

/-- The inside of a string up to its closing quote, which becomes a double one, and
what follows (lines 22–36). -/
def copyString (quote : Char) : Text → Text × Text
  | '\\' :: c :: rest =>
    let (copied, rest) := copyString quote rest
    ('\\' :: c :: copied, rest)
  | c :: rest =>
    if c = quote then (['"'], rest)
    else
      let (copied, rest) := copyString quote rest
      (c :: copied, rest)
  | [] => ([], [])

/-- `is_key_start_char` and `is_key_char` (lines 89–95). -/
def isKeyStartChar (table : UnicodeTable) (c : Char) : Bool :=
  table.isAlphabetic c || c == '_' || c == '$'

def isKeyChar (table : UnicodeTable) (c : Char) : Bool :=
  table.isAlphanumeric c || c == '_' || c == '$'

/-- A name behind a brace or a comma, quoted if a colon follows it (lines 51–78), and
what follows. -/
def copyKey (table : UnicodeTable) (text : Text) : Text × Text :=
  match text with
  | c :: _ =>
    if isKeyStartChar table c then
      let key := text.takeWhile (isKeyChar table)
      let rest := (text.drop key.length).dropWhile isWhitespace
      (if rest.head? = some ':' then '"' :: key ++ ['"'] else key, rest)
    else ([], text)
  | [] => ([], [])

/-- The loop of `normalize_relaxed_json` (lines 12–84); every turn reads a
character. -/
def normalizeLoop (table : UnicodeTable) : ℕ → Text → Text
  | turns + 1, c :: rest =>
    if c = '"' ∨ c = apostrophe then
      let (copied, rest) := copyString c rest
      '"' :: copied ++ normalizeLoop table turns rest
    else if c = '{' ∨ c = ',' then
      let spaces := rest.takeWhile isWhitespace
      let (key, rest) := copyKey table (rest.drop spaces.length)
      c :: spaces ++ key ++ normalizeLoop table turns rest
    else c :: normalizeLoop table turns rest
  | _, _ => []

/-- `normalize_relaxed_json` (lines 7–87). -/
def normalizeRelaxedJson (table : UnicodeTable) (input : Text) : Text :=
  normalizeLoop table input.length input

/-! ## Operations -/

/-- `MongoOperation` (`driver.rs`, lines 3329–3391). -/
inductive MongoOperation (L : Leaves)
  | find (filter : Fields L) (projection sort : Option (Fields L)) (limit : Option ℤ)
      (skip : Option ℕ)
  | aggregate (pipeline : List (Fields L))
  | count (filter : Fields L)
  | insertOne (document : Fields L)
  | insertMany (documents : List (Fields L))
  | updateOne (filter update : Fields L) (upsert : Bool)
  | updateMany (filter update : Fields L) (upsert : Bool)
  | deleteOne (filter : Fields L)
  | deleteMany (filter : Fields L)
  | replaceOne (filter replacement : Fields L) (upsert : Bool)
  | drop
  | getName
  | getCollectionNames
  | getCollectionInfos
  | dbStats
  | serverStatus
  | createCollection (name : Text)
  | dropDatabase
  | runCommand (command : Fields L)
  | adminCommand (command : Fields L)
  | version
  | hostInfo
  | currentOp

/-- `MongoQuery`. -/
structure MongoQuery (L : Leaves) where
  database : Option Text
  collection : Option Text
  operation : MongoOperation L

/-! ## Arguments -/

/-- The state of the two scanners of arguments: depth of brackets, the quote of the
string it is in, whether the next character is escaped. -/
structure Scan where
  depth : ℤ
  quote : Option Char
  escaped : Bool

def isOpening (c : Char) : Bool := c == '(' || c == '{' || c == '['

def isClosing (c : Char) : Bool := c == ')' || c == '}' || c == ']'

/-- One character: escapes count inside strings, brackets outside. -/
def Scan.step (s : Scan) (c : Char) : Scan :=
  if s.escaped then { s with escaped := false }
  else match s.quote with
    | some quote =>
      if c = '\\' then { s with escaped := true }
      else if c = quote then { s with quote := none }
      else s
    | none =>
      if c = '"' ∨ c = apostrophe then { s with quote := some c }
      else if isOpening c then { s with depth := s.depth + 1 }
      else if isClosing c then { s with depth := s.depth - 1 }
      else s

/-- Whether a character is read outside strings. -/
def Scan.isPlain (s : Scan) : Bool := !s.escaped && s.quote.isNone

/-- `find_matching_paren` (lines 453–499) from its parenthesis on: the text in front
of the matching one and the text behind it. -/
def matchingParen : Scan → Text → Option (Text × Text)
  | _, [] => none
  | s, c :: rest =>
    let next := s.step c
    if s.isPlain ∧ c = ')' ∧ next.depth = 0 then some ([], rest)
    else (matchingParen next rest).map fun (inside, behind) => (c :: inside, behind)

/-- `SCRIPT_UNSUPPORTED_MESSAGE` (lines 84–85). -/
def scriptUnsupportedMessage : Text :=
  ("JavaScript scripts are not supported yet. Run a single db.collection.method(...) call, " ++
    "a db.method(...) call, or a JSON query.").toList

/-- `parse_method_call` (lines 416–450): the name of the method and its arguments. -/
def parseMethodCall (table : UnicodeTable) (input : Text) : Except Text (Text × Text) :=
  let name := input.takeWhile (· ≠ '(')
  match input.drop name.length with
  | [] => .error "Expected '(' in method call".toList
  | _ :: inner =>
    -- the scan starts at the parenthesis, which opens the first bracket
    match matchingParen ⟨1, none, false⟩ inner with
    | none => .error "Unmatched parenthesis".toList
    | some (args, behind) =>
      let trailing := trim ((trim behind).dropWhile (· = ';'))
      match trailing with
      | [] => .ok (name, args)
      | '.' :: chained =>
        .error ("Chained method '.".toList ++
          chained.takeWhile (fun c => table.isAlphanumeric c || c == '_') ++
          ("()' is not supported. Express it in the method's own arguments, or use " ++
            "db.collection.aggregate([...]).").toList)
      | _ => .error scriptUnsupportedMessage

/-- The loop of `parse_arguments` (lines 742–798): the arguments found so far, the one
being read and the state. -/
def argumentsLoop (found : List Text) (current : Text) (s : Scan) : Text → List Text
  | [] => if trim current = [] then found else found ++ [trim current]
  | c :: rest =>
    if s.isPlain ∧ c = ',' ∧ s.depth = 0 then
      argumentsLoop (if trim current = [] then found else found ++ [trim current]) [] s rest
    else argumentsLoop found (current ++ [c]) (s.step c) rest

/-- `parse_arguments` (lines 729–801). -/
def parseArguments (args : Text) : List Text := argumentsLoop [] [] ⟨0, none, false⟩ (trim args)

section Parse

variable (w : Wire L)

/-- `serde_json::from_str`, with the message it is wrapped in. -/
def fromStr (context : String) (text : Text) : Except Text Json :=
  match w.codec.parse text with
  | some json => .ok json
  | none => .error (context.toList ++ w.jsonError text)

/-- `parse_relaxed_json` (lines 804–821). -/
def parseRelaxedJson (input : Text) : Except Text (Fields L) :=
  match w.codec.parse (trim input) with
  | some json => jsonToBsonDoc w json
  | none => do
    jsonToBsonDoc w (← fromStr w "Invalid JSON: " (normalizeRelaxedJson w.table (trim input)))

/-- An argument that may be missing, as a document. -/
def optionalDocument (argument : Option Text) : Except Text (Option (Fields L)) :=
  match argument with
  | none => .ok none
  | some text => do return some (← parseRelaxedJson w text)

/-- The first argument of a method that requires one. -/
def requireFirst (message : String) (args : List Text) : Except Text Text :=
  match args.head? with
  | some first => .ok first
  | none => .error message.toList

/-- The option `upsert` in the third argument. -/
def upsertOption (args : List Text) : Bool :=
  match args[2]? with
  | none => false
  | some text =>
    match parseRelaxedJson w text with
    | .error _ => false
    | .ok fields =>
      match fields.lookup "upsert".toList with
      | some (leaf (.boolean b)) => b
      | _ => false

/-- The common body of `find` and `findOne`. -/
def parseFindWith (limit : Option ℤ) (args : Text) : Except Text (MongoOperation L) := do
  let args := parseArguments args
  let filter ← optionalDocument w args.head?
  let projection ← optionalDocument w args[1]?
  return .find (filter.getD []) projection none limit none

/-- `parse_find_operation` (lines 525–543). -/
def parseFindOperation (args : Text) : Except Text (MongoOperation L) := parseFindWith w none args

/-- `parse_find_one_operation` (lines 546–564). -/
def parseFindOneOperation (args : Text) : Except Text (MongoOperation L) :=
  parseFindWith w (some 1) args

/-- `parse_aggregate_operation` (lines 567–580). -/
def parseAggregateOperation (args : Text) : Except Text (MongoOperation L) := do
  let pipeline ← requireFirst "aggregate requires a pipeline array" (parseArguments args)
  return .aggregate (← jsonArrayToBsonDocs w (← fromStr w "Invalid pipeline JSON: " pipeline))

/-- `parse_count_operation` (lines 583–594). -/
def parseCountOperation (args : Text) : Except Text (MongoOperation L) := do
  let filter ← optionalDocument w ((parseArguments args).head?.filter (· ≠ []))
  return .count (filter.getD [])

/-- `parse_insert_one_operation` (lines 597–607). -/
def parseInsertOneOperation (args : Text) : Except Text (MongoOperation L) := do
  return .insertOne (← parseRelaxedJson w
    (← requireFirst "insertOne requires a document" (parseArguments args)))

/-- `parse_insert_many_operation` (lines 610–623). -/
def parseInsertManyOperation (args : Text) : Except Text (MongoOperation L) := do
  let documents ← requireFirst "insertMany requires an array of documents" (parseArguments args)
  return .insertMany (← jsonArrayToBsonDocs w (← fromStr w "Invalid documents array: " documents))

/-- `parse_update_operation` (lines 638–670). -/
def parseUpdateOperation (many : Bool) (args : Text) : Except Text (MongoOperation L) :=
  let args := parseArguments args
  match args with
  | first :: second :: _ => do
    let filter ← parseRelaxedJson w first
    let update ← parseRelaxedJson w second
    let upsert := upsertOption w args
    return if many then .updateMany filter update upsert else .updateOne filter update upsert
  | _ => .error "update requires filter and update documents".toList

/-- `parse_update_one_operation` (lines 626–628). -/
def parseUpdateOneOperation (args : Text) : Except Text (MongoOperation L) :=
  parseUpdateOperation w false args

/-- `parse_update_many_operation` (lines 631–633). -/
def parseUpdateManyOperation (args : Text) : Except Text (MongoOperation L) :=
  parseUpdateOperation w true args

/-- `parse_delete_operation` (lines 683–697). -/
def parseDeleteOperation (many : Bool) (args : Text) : Except Text (MongoOperation L) := do
  let filter ← optionalDocument w (parseArguments args).head?
  return if many then .deleteMany (filter.getD []) else .deleteOne (filter.getD [])

/-- `parse_delete_one_operation` (lines 673–675). -/
def parseDeleteOneOperation (args : Text) : Except Text (MongoOperation L) :=
  parseDeleteOperation w false args

/-- `parse_delete_many_operation` (lines 678–680). -/
def parseDeleteManyOperation (args : Text) : Except Text (MongoOperation L) :=
  parseDeleteOperation w true args

/-- `parse_replace_one_operation` (lines 702–726). -/
def parseReplaceOneOperation (args : Text) : Except Text (MongoOperation L) :=
  let args := parseArguments args
  match args with
  | first :: second :: _ => do
    let filter ← parseRelaxedJson w first
    let replacement ← parseRelaxedJson w second
    return .replaceOne filter replacement (upsertOption w args)
  | _ => .error "replaceOne requires filter and replacement documents".toList

/-- `parse_operation` (lines 502–522). -/
def parseOperation (name args : Text) : Except Text (MongoOperation L) :=
  if name = "find".toList then parseFindOperation w args
  else if name = "findOne".toList then parseFindOneOperation w args
  else if name = "aggregate".toList then parseAggregateOperation w args
  else if name = "count".toList ∨ name = "countDocuments".toList then parseCountOperation w args
  else if name = "insertOne".toList then parseInsertOneOperation w args
  else if name = "insertMany".toList then parseInsertManyOperation w args
  else if name = "updateOne".toList then parseUpdateOneOperation w args
  else if name = "updateMany".toList then parseUpdateManyOperation w args
  else if name = "replaceOne".toList then parseReplaceOneOperation w args
  else if name = "deleteOne".toList then parseDeleteOneOperation w args
  else if name = "deleteMany".toList then parseDeleteManyOperation w args
  else if name = "drop".toList then .ok .drop
  else .error ("Unsupported method: ".toList ++ name ++
    (". Supported: find, findOne, aggregate, count, countDocuments, insertOne, insertMany, " ++
      "updateOne, updateMany, replaceOne, deleteOne, deleteMany, drop").toList)

/-! ## Methods of the database -/

/-- `DB_LEVEL_METHODS` (lines 261–274). -/
def dbLevelMethods : List Text :=
  ["getName", "getCollectionNames", "getCollectionInfos", "stats", "serverStatus",
    "createCollection", "dropDatabase", "runCommand", "adminCommand", "version", "hostInfo",
    "currentOp"].map String.toList

/-- `is_db_level_call` (lines 281–299). -/
def isDbLevelCall (rest : Text) : Bool :=
  let name := rest.takeWhile (· ≠ '(')
  rest.contains '(' && !name.contains '.' && dbLevelMethods.contains name

/-- `expect_no_args` (lines 378–386). -/
def expectNoArgs (method : String) (args : Text) : Except Text Unit :=
  if trim args = [] then .ok ()
  else .error (method.toList ++ " does not take arguments".toList)

/-- A method without arguments and what it then is. -/
def withoutArgs (method : String) (operation : MongoOperation L) (args : Text) :
    Except Text (MongoOperation L) := do
  expectNoArgs method args
  return operation

/-- `str::trim_matches`. -/
def trimMatches (c : Char) (text : Text) : Text := (text.dropWhile (· = c)).rdropWhile (· = c)

/-- The arm for `createCollection` (lines 323–337). -/
def parseCreateCollection (args : Text) : Except Text (MongoOperation L) := do
  let first ← requireFirst "createCollection requires a collection name" (parseArguments args)
  let name := trimMatches apostrophe (trimMatches '"' (trim first))
  if name = [] then throw "createCollection requires a non-empty name".toList
  else return .createCollection name

/-- `parse_db_operation` (lines 301–376). -/
def parseDbOperation (name args : Text) : Except Text (MongoOperation L) :=
  if name = "getName".toList then withoutArgs "getName" .getName args
  else if name = "getCollectionNames".toList then
    withoutArgs "getCollectionNames" .getCollectionNames args
  else if name = "getCollectionInfos".toList then
    withoutArgs "getCollectionInfos" .getCollectionInfos args
  else if name = "stats".toList then withoutArgs "stats" .dbStats args
  else if name = "serverStatus".toList then withoutArgs "serverStatus" .serverStatus args
  else if name = "createCollection".toList then parseCreateCollection args
  else if name = "dropDatabase".toList then withoutArgs "dropDatabase" .dropDatabase args
  else if name = "runCommand".toList then do
    return .runCommand (← parseRelaxedJson w
      (← requireFirst "runCommand requires a command document" (parseArguments args)))
  else if name = "adminCommand".toList then do
    return .adminCommand (← parseRelaxedJson w
      (← requireFirst "adminCommand requires a command document" (parseArguments args)))
  else if name = "version".toList then withoutArgs "version" .version args
  else if name = "hostInfo".toList then withoutArgs "hostInfo" .hostInfo args
  else if name = "currentOp".toList then withoutArgs "currentOp" .currentOp args
  else .error ("Unsupported database method: ".toList ++ name ++ ". Supported: ".toList ++
    ", ".toList.intercalate dbLevelMethods)

/-! ## Queries -/

/-- `split_collection_and_method` (lines 389–413). -/
def splitCollectionAndMethod (input : Text) : Except Text (Text × Text) :=
  let head := input.takeWhile (· ≠ '(')
  if head.length = input.length then .error "Expected method call with ()".toList
  else
    let method := head.rtakeWhile (· ≠ '.')
    if method.length = head.length then .error "Expected collection.method format".toList
    else
      let collection := head.take (head.length - method.length - 1)
      if collection = [] then .error "Collection name cannot be empty".toList
      else .ok (collection, input.drop (collection.length + 1))

/-- `parse_shell_syntax` (lines 168–192) behind `db.`. -/
def parseShellSyntax (rest : Text) : Except Text (MongoQuery L) := do
  if isDbLevelCall rest then
    let (name, args) ← parseMethodCall w.table rest
    return ⟨none, none, ← parseDbOperation w name args⟩
  else
    let (collection, call) ← splitCollectionAndMethod rest
    let (name, args) ← parseMethodCall w.table call
    return ⟨none, some collection, ← parseOperation w name args⟩

/-- `JAVASCRIPT_STATEMENT_STARTERS` (lines 92–108). -/
def javascriptStatementStarters : List Text :=
  ["const ", "let ", "var ", "function ", "for ", "for(", "while ", "while(", "if ", "if(",
    "class ", "async ", "return ", "//", "/*"].map String.toList

/-- `looks_like_javascript` (lines 116–122). -/
def looksLikeJavascript (input : Text) : Bool :=
  javascriptStatementStarters.any fun starter => starter.isPrefixOf (trimStart input)

/-- A member as a document, where it is one. -/
def memberDocument (members : List (Text × Json)) (key : String) : Option (Fields L) :=
  (members.lookup key.toList).bind fun json => (jsonToBsonDoc w json).toOption

/-- A member that is required to be a document. -/
def requireDocument (members : List (Text × Json)) (key message : String) :
    Except Text (Fields L) :=
  match members.lookup key.toList with
  | some json => jsonToBsonDoc w json
  | none => .error message.toList

/-- The branch for `replace` (lines 858–883). -/
def parseReplaceMember (members : List (Text × Json)) : Except Text (MongoOperation L) :=
  match members.lookup "replace".toList with
  | some (.object replace) => do
    let filter ← requireDocument w replace "filter" "replace.filter is required"
    let replacement ← requireDocument w replace "replacement" "replace.replacement is required"
    let upsert := match replace.lookup "upsert".toList with
      | some (.bool b) => b
      | _ => false
    return .replaceOne filter replacement upsert
  | _ => .error "replace must be an object".toList

/-- `as_i64` and `as_u64` of a member. -/
def memberInteger (members : List (Text × Json)) (key : String) : Option ℤ :=
  match members.lookup key.toList with
  | some (.number text) => w.asI64 text
  | _ => none

def memberNatural (members : List (Text × Json)) (key : String) : Option ℕ :=
  match members.lookup key.toList with
  | some (.number text) => w.asU64 text
  | _ => none

/-- The operation of a JSON query (lines 843–904). -/
def parseMembers (members : List (Text × Json)) : Except Text (MongoOperation L) :=
  match (members.lookup "aggregate".toList).or (members.lookup "pipeline".toList) with
  | some pipeline => do return .aggregate (← jsonArrayToBsonDocs w pipeline)
  | none =>
    if (members.lookup "count".toList).isSome then
      .ok (.count ((memberDocument w members "count").getD []))
    else if (members.lookup "replace".toList).isSome then parseReplaceMember w members
    else .ok (.find ((memberDocument w members "filter").getD [])
      (memberDocument w members "projection") (memberDocument w members "sort")
      (memberInteger w members "limit") (memberNatural w members "skip"))

/-- `parse_json_format` (lines 824–911). -/
def parseJsonFormat (input : Text) : Except Text (MongoQuery L) := do
  match ← fromStr w "Invalid JSON: " input with
  | .object members =>
    match memberText members "collection" with
    | none => throw "Missing 'collection' field".toList
    | some collection =>
      return ⟨memberText members "database", some collection, ← parseMembers w members⟩
  | _ => throw "Query must be a JSON object".toList

/-- `parse_query` (lines 149–165). -/
def parseQuery (input : Text) : Except Text (MongoQuery L) :=
  match trim input with
  | 'd' :: 'b' :: '.' :: rest => parseShellSyntax w rest
  | trimmed =>
    if looksLikeJavascript trimmed then .error scriptUnsupportedMessage
    else parseJsonFormat w trimmed

end Parse

end Dbflux.Mongo

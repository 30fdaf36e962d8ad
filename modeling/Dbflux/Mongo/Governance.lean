import Dbflux.Approval.Model
import Dbflux.Lib.Ensures
import Dbflux.Lib.JsonText
import Dbflux.Mongo.Query
import Dbflux.Mongo.Update

/-!
# Governance of MongoDB queries

The gate rates the text of a query (`classify_query_for_governance`,
`dbflux_core/src/query/safety.rs` lines 142–148, and `classify_mongo_query`,
`language_service.rs` lines 351–409 and 1318–1366); the driver rates the operation it
has parsed (`mongo_operation_classification`, `driver.rs` lines 1976–2061). The two
are compared by `ceiling_permits` (`script_operation.rs` lines 152–172). `none` is a
gate that panics.

Results:
* `mentions_of_parseQuery`: a query that deletes or drops says so in its text.
* `classifyMongoQuery_spec`: which texts get which class.
* `governance_covers_iff`: when the gate covers the operation that runs. It never does
  for a command, and for a delete only where the text also mentions a drop.
-/

namespace Dbflux.Mongo

open Dbflux.Lib Dbflux.Lib.ValueTree Dbflux.Approval

variable {L : Leaves}

/-! ## The gate -/

/-- `str::to_ascii_lowercase`. -/
def asciiLowercase (text : Text) : Text := text.map Char.toLower

/-- `str::contains`. -/
def mentions (text : Text) (pattern : String) : Bool := (afterFirst pattern.toList text).isSome

/-- `is_empty_filter` (lines 1347–1366). The slice from byte 1 to the brace panics if
the brace is the first character or byte 1 is inside a character. -/
def isEmptyFilter (argsStart : Text) : Option Bool :=
  match trim argsStart with
  | [] => some false
  | c :: rest =>
    if c = ')' then some true
    else if c = '{' ∧ rest.head? = some '}' then some true
    else if c = '}' then none
    else if rest.contains '}' then
      if 127 < c.toNat then none else some (trim (rest.takeWhile (· ≠ '}')) = [])
    else some false

/-- Whether a call of `method` has an empty filter. -/
def emptyFilterBehind (method : String) (normalized : Text) : Option Bool :=
  match afterFirst method.toList normalized with
  | some behind => isEmptyFilter behind
  | none => some false

def opensKey (before : Option Char) : Bool :=
  before.any fun c =>
    c == '{' || c == ',' || c == '"' || c == apostrophe || c == Char.ofNat 96 || isWhitespace c

/-- Whether a key ends here: a closing quote, if any, blanks and a colon. -/
def endsKey (rest : Text) : Bool :=
  let unquoted := match rest with
    | c :: behind => if c = '"' ∨ c = apostrophe ∨ c = Char.ofNat 96 then behind else rest
    | [] => []
  (trimStart unquoted).head? = some ':'

/-- `contains_stage_key` (lines 1329–1345), behind a character. The operators start
with their only `$`, so no two occurrences overlap. -/
def containsStageKey (operator : Text) : Option Char → Text → Bool
  | _, [] => false
  | before, c :: rest =>
    (operator.isPrefixOf (c :: rest) && opensKey before &&
      endsKey ((c :: rest).drop operator.length)) || containsStageKey operator (some c) rest

/-- `aggregate_writes_output` (lines 1318–1327). -/
def aggregateWritesOutput (query : Text) : Bool :=
  let normalized := asciiLowercase query
  mentions normalized ".aggregate(" && (containsStageKey "$out".toList none normalized ||
      containsStageKey "$merge".toList none normalized)

/-- `classify_mongo_query` from the test for an output stage on (lines 380–408). -/
def classifyByMethod (normalized : Text) : ExecutionClassification :=
  if aggregateWritesOutput normalized then .write
  else if mentions normalized ".find(" || mentions normalized ".aggregate(" then .read
  else if mentions normalized ".countdocuments(" ||
      mentions normalized ".estimateddocumentcount(" then .metadata
  else if mentions normalized ".insert" || mentions normalized ".update" ||
      mentions normalized ".delete" || mentions normalized ".replace" then .write
  else if mentions normalized "createuser" || mentions normalized "grantroles" ||
      mentions normalized "revoke" || mentions normalized "shutdownserver" then .admin
  else .write

/-- `classify_mongo_query` (lines 351–409). -/
def classifyMongoQuery (query : Text) : Option ExecutionClassification :=
  let normalized := asciiLowercase (trim query)
  if normalized = [] then some .metadata
  else if mentions normalized ".dropdatabase(" then some .destructive
  else if mentions normalized ".drop(" && !mentions normalized ".dropdatabase(" then
    some .destructive
  else
    match emptyFilterBehind ".deletemany(" normalized with
    | none => none
    | some true => some .write
    | some false =>
      match emptyFilterBehind ".updatemany(" normalized with
      | none => none
      | some true => some .write
      | some false => some (classifyByMethod normalized)

/-- `StaticScanOutcome` of `dbflux_js`. -/
inductive StaticScanOutcome
  | read
  | requiresConfirmation
  | rejected
deriving DecidableEq

/-- `is_script_input` (`query_parser.rs` lines 136–141). -/
def isScriptInput (w : Wire L) (query : Text) : Bool :=
  match parseQuery w query with
  | .ok _ => false
  | .error message => message = scriptUnsupportedMessage

/-- `MongoLanguageService::classify_execution` (`dbflux_driver_mongodb/src/language_service.rs`
lines 70–81). -/
def classifyExecution (w : Wire L) (staticScan : Text → StaticScanOutcome) (query : Text) :
    Option ExecutionClassification :=
  if isScriptInput w query then
    some (match staticScan query with
      | .read => .read
      | .requiresConfirmation | .rejected => .destructive)
  else none

/-- `classify_query_for_governance` for `QueryLanguage::MongoQuery`, with or without the
driver's language service. -/
def classifyQueryForGovernance (w : Wire L) (service : Option (Text → StaticScanOutcome))
    (query : Text) : Option ExecutionClassification :=
  match service.bind fun staticScan => classifyExecution w staticScan query with
  | some classification => some classification
  | none => classifyMongoQuery query

/-! ## The driver -/

mutual

/-- `bson_contains_key` (`driver.rs` lines 2055–2061). -/
def bsonContainsKey (keys : List Text) : Bson L → Bool
  | leaf _ => false
  | array items => itemsContainKey keys items
  | document fields => documentContainsKey keys fields

def itemsContainKey (keys : List Text) : List (Bson L) → Bool
  | [] => false
  | item :: rest => bsonContainsKey keys item || itemsContainKey keys rest

/-- `document_contains_key` (lines 2049–2053). -/
def documentContainsKey (keys : List Text) : List (Text × Bson L) → Bool
  | [] => false
  | (key, value) :: rest =>
    keys.contains key || bsonContainsKey keys value || documentContainsKey keys rest

end

/-- `OUTPUT_STAGES` (line 2016). -/
def outputStages : List Text := ["$out".toList, "$merge".toList]

/-- `document_contains_output_stage` (lines 2023–2025). -/
def documentContainsOutputStage (fields : Fields L) : Bool :=
  documentContainsKey outputStages fields

/-- `mongo_operation_classification` (lines 1976–2013). -/
def mongoOperationClassification : MongoOperation L → ExecutionClassification
  | .find .. => .read
  | .aggregate pipeline =>
    if pipeline.any documentContainsOutputStage then .write else .read
  | .count _ | .getName | .getCollectionNames | .getCollectionInfos | .dbStats
  | .serverStatus | .version | .hostInfo | .currentOp => .metadata
  | .insertOne _ | .insertMany _ | .updateOne .. | .updateMany .. | .replaceOne .. => .write
  | .deleteOne _ | .deleteMany _ | .drop | .dropDatabase => .destructive
  | .createCollection _ => .adminSafe
  | .runCommand _ | .adminCommand _ => .adminDestructive

/-- `severity_rank` (`script_operation.rs` lines 152–162). -/
def severityRank : ExecutionClassification → ℕ
  | .metadata => 0
  | .read => 1
  | .write => 2
  | .destructive => 3
  | .adminSafe => 4
  | .admin => 5
  | .adminDestructive => 6

/-- `ceiling_permits` (lines 170–172). -/
def ceilingPermits (ceiling op : ExecutionClassification) : Bool :=
  severityRank op ≤ severityRank ceiling

/-- There is an answer, and it permits a class. -/
def Permits (answer : Option ExecutionClassification) (op : ExecutionClassification) : Prop :=
  ∃ ceiling, answer = some ceiling ∧ ceilingPermits ceiling op

/-- The gate answers, and its answer is at least as restrictive as the operation. -/
def Covers (w : Wire L) (service : Option (Text → StaticScanOutcome)) (text : Text)
    (operation : MongoOperation L) : Prop :=
  Permits (classifyQueryForGovernance w service text) (mongoOperationClassification operation)

/-! ## What an accepted text says -/

theorem parseMethodCall_ok {table : UnicodeTable} {input name args : Text}
    (h : parseMethodCall table input = .ok (name, args)) : ∃ rest, input = name ++ '(' :: rest := by
  unfold parseMethodCall at h
  dsimp only at h
  split at h
  · cases h
  next c inner hdrop =>
    obtain ⟨-, hinput⟩ := split_at_first hdrop
    split at h
    · cases h
    · split at h
      · cases h
        exact ⟨inner, hinput⟩
      · cases h
      · cases h

theorem splitCollectionAndMethod_ok {input collection call : Text}
    (h : splitCollectionAndMethod input = .ok (collection, call)) :
    ∃ before, input = before ++ '.' :: call := by
  unfold splitCollectionAndMethod at h
  dsimp only at h
  set head := input.takeWhile (· ≠ '(') with hhead
  set method := head.rtakeWhile (· ≠ '.') with hmethod
  split_ifs at h with hparen hdot hempty
  cases h
  -- the head is the collection, a dot and the method
  have hsplit : head.rdropWhile (· ≠ '.') ++ method = head := List.rdropWhile_append_rtakeWhile ..
  have hlength := congrArg List.length hsplit
  rw [List.length_append] at hlength
  have hne : head.rdropWhile (· ≠ '.') ≠ [] := by
    intro hnil
    rw [hnil] at hlength
    exact hdot (by simpa using hlength)
  have hlast : (head.rdropWhile (· ≠ '.')).getLast hne = '.' := by
    simpa using List.rdropWhile_last_not (· ≠ '.') head hne
  have hdropped : head.rdropWhile (· ≠ '.') = (head.rdropWhile (· ≠ '.')).dropLast ++ ['.'] := by
    conv_lhs => rw [← List.dropLast_append_getLast hne, hlast]
  set collection := (head.rdropWhile (· ≠ '.')).dropLast with hcollection
  have hcount : head.length - method.length - 1 = collection.length := by
    rw [hdropped, List.length_append] at hlength
    simp only [List.length_singleton] at hlength
    omega
  have hinput : input = collection ++ '.' :: (method ++ input.dropWhile (· ≠ '(')) := by
    have := List.takeWhile_append_dropWhile (p := (· ≠ '(')) (l := input)
    rw [← hhead, ← hsplit, hdropped] at this
    simpa using this.symm
  have htake : head.take (head.length - method.length - 1) = collection := by
    rw [hcount, ← hsplit, hdropped, List.append_assoc, List.take_left]
  refine ⟨collection, ?_⟩
  rw [htake]
  nth_rewrite 1 [hinput]
  conv_rhs => rw [hinput]
  simp

/-- The method an operation is the meaning of, where the gate depends on it. -/
def MethodOf (name : Text) : MongoOperation L → Prop
  | .drop => name = "drop".toList
  | .dropDatabase => name = "dropDatabase".toList
  | .deleteOne _ => name = "deleteOne".toList
  | .deleteMany _ => name = "deleteMany".toList
  | _ => True

section Methods

variable {w : Wire L} {name args text : Text} {operation : MongoOperation L}

/-- Operations of methods whose name the gate does not need. -/
def Unnamed (operation : MongoOperation L) : Prop := ∀ name, MethodOf name operation

theorem methodOf_parseUpdateOperation (many : Bool) :
    Yields (parseUpdateOperation w many args) (MethodOf name) := by
  unfold parseUpdateOperation
  dsimp only
  split
  · refine .bind fun filter => .bind fun update => .ok ?_
    cases many <;> trivial
  · exact .error

theorem methodOf_parseReplaceOneOperation :
    Yields (parseReplaceOneOperation w args) (MethodOf name) := by
  unfold parseReplaceOneOperation
  dsimp only
  split
  · exact .bind fun _ => .bind fun _ => .ok trivial
  · exact .error

theorem methodOf_parseDeleteOperation {many : Bool}
    (h : name = if many then "deleteMany".toList else "deleteOne".toList) :
    Yields (parseDeleteOperation w many args) (MethodOf name) := by
  refine .bind fun filter => .ok ?_
  cases many <;> exact h

theorem methodOf_parseOperation : Yields (parseOperation w name args) (MethodOf name) := by
  -- one branch of the source's match after the other
  iterate 2
    refine .ite (fun _ => .bind fun _ => .bind fun _ => .ok trivial) fun _ => ?_
  refine .ite (fun _ => .bind fun _ => .bind fun _ => .bind fun _ => .ok trivial) fun _ => ?_
  refine .ite (fun _ => .bind fun _ => .ok trivial) fun _ => ?_
  refine .ite (fun _ => .bind fun _ => .bind fun _ => .ok trivial) fun _ => ?_
  refine .ite (fun _ => .bind fun _ => .bind fun _ => .bind fun _ => .ok trivial) fun _ => ?_
  iterate 2 refine .ite (fun _ => methodOf_parseUpdateOperation _) fun _ => ?_
  refine .ite (fun _ => methodOf_parseReplaceOneOperation) fun _ => ?_
  iterate 2 refine .ite (fun h => methodOf_parseDeleteOperation h) fun _ => ?_
  exact .ite (fun h => .ok h) fun _ => .error

theorem methodOf_withoutArgs {method : String} {expected : MongoOperation L}
    (h : MethodOf name expected) : Yields (withoutArgs method expected args) (MethodOf name) :=
  .bind fun _ => .ok h

theorem methodOf_parseDbOperation : Yields (parseDbOperation w name args) (MethodOf name) := by
  iterate 5
    refine .ite (fun _ => methodOf_withoutArgs trivial) fun _ => ?_
  refine .ite (fun _ => .bind fun first => ?_) fun _ => ?_
  · dsimp only
    split
    · exact .error
    · exact .ok trivial
  refine .ite (fun h => methodOf_withoutArgs h) fun _ => ?_
  iterate 2
    refine .ite (fun _ => .bind fun _ => .bind fun _ => .ok trivial) fun _ => ?_
  iterate 2
    refine .ite (fun _ => methodOf_withoutArgs trivial) fun _ => ?_
  exact .ite (fun _ => methodOf_withoutArgs trivial) fun _ => .error

theorem unnamed_parseMembers (members : List (Text × Json)) :
    Yields (parseMembers w members) Unnamed := by
  unfold parseMembers
  split
  · exact .bind fun _ => .ok fun _ => trivial
  · refine .ite (fun _ => .ok fun _ => trivial) fun _ => ?_
    refine .ite (fun _ => ?_) fun _ => .ok fun _ => trivial
    unfold parseReplaceMember
    split
    · exact .bind fun _ => .bind fun _ => .ok fun _ => trivial
    · exact .error

variable {query : MongoQuery L}

/-- A query in shell syntax is a call of its operation's method. -/
theorem parseShellSyntax_ok {rest : Text}
    (h : parseShellSyntax w rest = .ok query) :
    ∃ before name behind, '.' :: rest = before ++ '.' :: (name ++ '(' :: behind) ∧
      MethodOf name query.operation := by
  unfold parseShellSyntax at h
  split at h
  · obtain ⟨⟨name, args⟩, hcall, h⟩ := bind_eq_ok.mp h
    obtain ⟨operation, hoperation, h⟩ := bind_eq_ok.mp h
    cases h
    obtain ⟨behind, rfl⟩ := parseMethodCall_ok hcall
    exact ⟨[], name, behind, rfl, methodOf_parseDbOperation _ hoperation⟩
  · obtain ⟨⟨collection, call⟩, hsplit, h⟩ := bind_eq_ok.mp h
    obtain ⟨⟨name, args⟩, hcall, h⟩ := bind_eq_ok.mp h
    obtain ⟨operation, hoperation, h⟩ := bind_eq_ok.mp h
    cases h
    obtain ⟨before, rfl⟩ := splitCollectionAndMethod_ok hsplit
    obtain ⟨behind, rfl⟩ := parseMethodCall_ok hcall
    exact ⟨'.' :: before, name, behind, rfl, methodOf_parseOperation _ hoperation⟩

/-- An accepted text holds the call of its operation's method, unless the gate needs
no method of it. -/
theorem parseQuery_ok (h : parseQuery w text = .ok query) :
    (∃ name, '.' :: name ++ ['('] <:+: trim text ∧ MethodOf name query.operation) ∨
      Unnamed query.operation := by
  unfold parseQuery at h
  split at h
  next rest htrim =>
    obtain ⟨before, name, behind, hrest, hmethod⟩ := parseShellSyntax_ok h
    refine .inl ⟨name, ⟨'d' :: 'b' :: before, behind, ?_⟩, hmethod⟩
    rw [htrim, hrest]
    simp
  next =>
    split at h
    · cases h
    · obtain ⟨json, -, h⟩ := bind_eq_ok.mp h
      split at h
      · split at h
        · cases h
        · obtain ⟨operation, hoperation, h⟩ := bind_eq_ok.mp h
          cases h
          exact .inr (unnamed_parseMembers _ _ hoperation)
      · cases h

theorem trim_ne_nil_of_parseQuery (h : parseQuery w text = .ok query) :
    trim text ≠ [] := by
  intro hnil
  rw [parseQuery, hnil] at h
  simp [looksLikeJavascript, javascriptStatementStarters, parseJsonFormat, fromStr,
    w.codec.parse_nil, trimStart, bind, Except.bind] at h

end Methods

/-! ## What the gate answers -/

/-- The text the gate searches. -/
def normalized (text : Text) : Text := asciiLowercase (trim text)

theorem mentions_iff (text : Text) (pattern : String) :
    mentions text pattern ↔ pattern.toList <:+: text :=
  isSome_afterFirst_iff pattern.toList text

variable {text : Text}

/-- **A query that deletes or drops says so in its text.** -/
theorem mentions_of_parseQuery {w : Wire L} {query : MongoQuery L}
    (h : parseQuery w text = .ok query) :
    match query.operation with
    | .drop => mentions (normalized text) ".drop("
    | .dropDatabase => mentions (normalized text) ".dropdatabase("
    | .deleteOne _ | .deleteMany _ => mentions (normalized text) ".delete"
    | _ => True := by
  obtain ⟨name, hcall, hmethod⟩ | hunnamed := parseQuery_ok h
  · have hcall : _ <:+: normalized text := hcall.map Char.toLower
    split <;> rename_i hoperation <;> first | trivial | rw [hoperation] at hmethod
    · cases (hmethod : name = _)
      exact (mentions_iff _ _).mpr hcall
    · cases (hmethod : name = _)
      exact (mentions_iff _ _).mpr hcall
    · cases (hmethod : name = _)
      exact (mentions_iff _ _).mpr (.trans ⟨[], "one(".toList, by decide⟩ hcall)
    · cases (hmethod : name = _)
      exact (mentions_iff _ _).mpr (.trans ⟨[], "many(".toList, by decide⟩ hcall)
  · -- no name is the method of two names at once
    split <;> rename_i hoperation <;> first | trivial | rw [hoperation] at hunnamed
    all_goals exact absurd (hunnamed []) (by simp [MethodOf])

/-- The text mentions a drop. -/
def Drops (n : Text) : Prop := mentions n ".dropdatabase(" ∨ mentions n ".drop("

/-- The slice of `is_empty_filter` does not exist: behind the call stands a closing
brace, or a character of several bytes in front of one. -/
def Unsliceable (method : String) (n : Text) : Prop :=
  ∃ behind c rest, afterFirst method.toList n = some behind ∧ trim behind = c :: rest ∧
    (c = '}' ∨ 127 < c.toNat ∧ '}' ∈ rest)

theorem isEmptyFilter_eq_none_iff (behind : Text) : isEmptyFilter behind = none ↔
      ∃ c rest, trim behind = c :: rest ∧ (c = '}' ∨ 127 < c.toNat ∧ '}' ∈ rest) := by
  unfold isEmptyFilter
  cases htrim : trim behind with
  | nil => simp
  | cons c rest =>
    by_cases hparen : c = ')'
    · subst hparen
      simp
    by_cases hbrace : c = '}'
    · subst hbrace
      simp
    by_cases hopen : c = '{'
    · subst hopen
      simp only [hparen, hbrace, if_false]
      split_ifs <;> simp_all
    · simp only [hparen, hbrace, hopen, if_false, false_and]
      split_ifs <;> simp_all

theorem emptyFilterBehind_eq_none_iff (method : String) (n : Text) :
    emptyFilterBehind method n = none ↔ Unsliceable method n := by
  unfold emptyFilterBehind Unsliceable
  cases afterFirst method.toList n with
  | none => simp
  | some behind => simp [isEmptyFilter_eq_none_iff]

/-- The gate panics. -/
def Panics (n : Text) : Prop :=
  ¬ Drops n ∧ (Unsliceable ".deletemany(" n ∨
    emptyFilterBehind ".deletemany(" n = some false ∧ Unsliceable ".updatemany(" n)

/-- Nothing in front of the tests for methods answers. -/
def Quiet (n : Text) : Prop :=
  ¬ Drops n ∧ emptyFilterBehind ".deletemany(" n = some false ∧
    emptyFilterBehind ".updatemany(" n = some false ∧ aggregateWritesOutput n = false

def MentionsRead (n : Text) : Prop := mentions n ".find(" ∨ mentions n ".aggregate("

def MentionsCount (n : Text) : Prop :=
  mentions n ".countdocuments(" ∨ mentions n ".estimateddocumentcount("

def MentionsEdit (n : Text) : Prop :=
  mentions n ".insert" ∨ mentions n ".update" ∨ mentions n ".delete" ∨ mentions n ".replace"

def MentionsAdmin (n : Text) : Prop :=
  mentions n "createuser" ∨ mentions n "grantroles" ∨ mentions n "revoke" ∨
    mentions n "shutdownserver"

/-- The texts that are rated as reads, as metadata and as administration. -/
def Reads (n : Text) : Prop := Quiet n ∧ MentionsRead n

def Counts (n : Text) : Prop := Quiet n ∧ ¬ MentionsRead n ∧ MentionsCount n

def Administers (n : Text) : Prop :=
  Quiet n ∧ ¬ MentionsRead n ∧ ¬ MentionsCount n ∧ ¬ MentionsEdit n ∧ MentionsAdmin n

variable {n : Text}

/-- The classes a text gets from the methods it mentions. -/
theorem classifyByMethod_of_neither (h : aggregateWritesOutput n = false)
    (hread : ¬ MentionsRead n) (hcount : ¬ MentionsCount n) :
    (¬ MentionsEdit n ∧ MentionsAdmin n ∧ classifyByMethod n = .admin) ∨
      (¬ (¬ MentionsEdit n ∧ MentionsAdmin n) ∧ classifyByMethod n = .write) := by
  rw [classifyByMethod, h, if_neg Bool.false_ne_true, if_neg (mt (Bool.or_eq_true ..).mp hread),
    if_neg (mt (Bool.or_eq_true ..).mp hcount)]
  by_cases hedit : MentionsEdit n
  · rw [if_pos (by simpa [MentionsEdit, or_assoc] using hedit)]
    exact .inr ⟨fun hboth => hboth.1 hedit, rfl⟩
  rw [if_neg (by simpa [MentionsEdit, or_assoc] using hedit)]
  by_cases hadmin : MentionsAdmin n
  · rw [if_pos (by simpa [MentionsAdmin, or_assoc] using hadmin)]
    exact .inl ⟨hedit, hadmin, rfl⟩
  · rw [if_neg (by simpa [MentionsAdmin, or_assoc] using hadmin)]
    exact .inr ⟨fun hboth => hadmin hboth.2, rfl⟩

/-- An answer of the gate and the texts that get it. -/
inductive Rated (n : Text) : Option ExecutionClassification → Prop
  | drops : Drops n → Rated n (some .destructive)
  | panics : Panics n → Rated n none
  | reads : Reads n → Rated n (some .read)
  | counts : Counts n → Rated n (some .metadata)
  | administers : Administers n → Rated n (some .admin)
  | writes : ¬ Drops n → ¬ Panics n → ¬ Reads n → ¬ Counts n → ¬ Administers n →
      Rated n (some .write)

theorem rated_of_write (hdrops : ¬ Drops n) (hpanics : ¬ Panics n) (hquiet : ¬ Quiet n) :
    Rated n (some .write) :=
  .writes hdrops hpanics (fun h => hquiet h.1) (fun h => hquiet h.1) (fun h => hquiet h.1)

theorem rated_classifyByMethod (hdrops : ¬ Drops n)
    (hdelete : emptyFilterBehind ".deletemany(" n = some false)
    (hupdate : emptyFilterBehind ".updatemany(" n = some false) :
    Rated n (some (classifyByMethod n)) := by
  have hpanics : ¬ Panics n := by
    rintro ⟨-, hslice | ⟨-, hslice⟩⟩
    · rw [← emptyFilterBehind_eq_none_iff, hdelete] at hslice
      cases hslice
    · rw [← emptyFilterBehind_eq_none_iff, hupdate] at hslice
      cases hslice
  cases houtput : aggregateWritesOutput n with
  | true =>
    rw [classifyByMethod, if_pos houtput]
    refine rated_of_write hdrops hpanics fun hquiet => ?_
    rw [hquiet.2.2.2] at houtput
    cases houtput
  | false =>
    have hquiet : Quiet n := ⟨hdrops, hdelete, hupdate, houtput⟩
    by_cases hread : MentionsRead n
    · rw [classifyByMethod, houtput, if_neg Bool.false_ne_true,
        if_pos (Bool.or_eq_true .. |>.mpr hread)]
      exact .reads ⟨hquiet, hread⟩
    by_cases hcount : MentionsCount n
    · rw [classifyByMethod, houtput, if_neg Bool.false_ne_true,
        if_neg (mt (Bool.or_eq_true ..).mp hread), if_pos (Bool.or_eq_true .. |>.mpr hcount)]
      exact .counts ⟨hquiet, hread, hcount⟩
    obtain ⟨hedit, hadmin, hclass⟩ | ⟨hneither, hclass⟩ :=
      classifyByMethod_of_neither houtput hread hcount
    · rw [hclass]
      exact .administers ⟨hquiet, hread, hcount, hedit, hadmin⟩
    · rw [hclass]
      exact .writes hdrops hpanics (fun h => hread h.2) (fun h => hcount h.2.2)
        (fun h => hneither h.2.2.2)

/-- **Which texts get which class.** -/
theorem classifyMongoQuery_spec (hne : normalized text ≠ []) :
    Rated (normalized text) (classifyMongoQuery text) := by
  unfold classifyMongoQuery
  rw [show asciiLowercase (trim text) = normalized text from rfl]
  generalize normalized text = n at hne ⊢
  rw [if_neg hne]
  by_cases hdatabase : mentions n ".dropdatabase(" = true
  · rw [if_pos hdatabase]
    exact .drops (.inl hdatabase)
  rw [if_neg hdatabase]
  by_cases hdrop : mentions n ".drop(" = true
  · rw [if_pos (by rw [hdrop, Bool.eq_false_of_not_eq_true hdatabase]; rfl)]
    exact .drops (.inr hdrop)
  have hdrops : ¬ Drops n := by
    rintro (h | h)
    · exact hdatabase h
    · exact hdrop h
  rw [if_neg (by rw [Bool.eq_false_of_not_eq_true hdrop]; exact Bool.false_ne_true)]
  cases hdelete : emptyFilterBehind ".deletemany(" n with
  | none => exact .panics ⟨hdrops, .inl ((emptyFilterBehind_eq_none_iff _ n).mp hdelete)⟩
  | some empty =>
    have hslice : ¬ Unsliceable ".deletemany(" n := by
      rw [← emptyFilterBehind_eq_none_iff, hdelete]
      exact Option.some_ne_none _
    cases empty with
    | true =>
      refine rated_of_write hdrops ?_ fun hquiet => ?_
      · rintro ⟨-, h | ⟨h, -⟩⟩
        · exact hslice h
        · rw [hdelete] at h
          cases h
      · have := hquiet.2.1
        rw [hdelete] at this
        cases this
    | false =>
      cases hupdate : emptyFilterBehind ".updatemany(" n with
      | none =>
        exact .panics ⟨hdrops, .inr ⟨hdelete, (emptyFilterBehind_eq_none_iff _ n).mp hupdate⟩⟩
      | some empty =>
        cases empty with
        | true =>
          refine rated_of_write hdrops ?_ fun hquiet => ?_
          · rintro ⟨-, h | ⟨-, h⟩⟩
            · exact hslice h
            · rw [← emptyFilterBehind_eq_none_iff, hupdate] at h
              cases h
          · have := hquiet.2.2.1
            rw [hupdate] at this
            cases this
        | false => exact rated_classifyByMethod hdrops hdelete hupdate

theorem Panics.not_quiet (h : Panics n) : ¬ Quiet n := by
  rintro ⟨-, hdelete, hupdate, -⟩
  obtain ⟨-, hslice | ⟨-, hslice⟩⟩ := h
  · rw [← emptyFilterBehind_eq_none_iff, hdelete] at hslice
    cases hslice
  · rw [← emptyFilterBehind_eq_none_iff, hupdate] at hslice
    cases hslice

namespace Rated

variable {n : Text} {answer : Option ExecutionClassification} (h : Rated n answer)
include h

theorem answers :
    (Drops n ↔ answer = some .destructive) ∧ (Panics n ↔ answer = none) ∧
      (Reads n ↔ answer = some .read) ∧ (Counts n ↔ answer = some .metadata) ∧
      (Administers n ↔ answer = some .admin) := by
  have hquiet (h : Quiet n) : ¬ Drops n ∧ ¬ Panics n := ⟨h.1, fun hpanics => hpanics.not_quiet h⟩
  cases h with
  | drops h => simp [h, Panics, Reads, Counts, Administers, Quiet]
  | panics h => simp [h, h.1, h.not_quiet, Reads, Counts, Administers]
  | reads h => simp [h, h.2, hquiet h.1, Counts, Administers]
  | counts h => simp [h, h.2, hquiet h.1, Reads, Administers]
  | administers h => simp [h, h.2, hquiet h.1, Reads, Counts]
  | writes hdrops hpanics hreads hcounts hadmin =>
    simp [hdrops, hpanics, hreads, hcounts, hadmin]

theorem drops_iff : Drops n ↔ answer = some .destructive := h.answers.1

theorem panics_iff : Panics n ↔ answer = none := h.answers.2.1

theorem reads_iff : Reads n ↔ answer = some .read := h.answers.2.2.1

theorem counts_iff : Counts n ↔ answer = some .metadata :=
  h.answers.2.2.2.1

theorem administers_iff : Administers n ↔ answer = some .admin :=
  h.answers.2.2.2.2

end Rated

/-! ## When the gate covers the operation -/

theorem classifyQueryForGovernance_of_accepted {w : Wire L} {query : MongoQuery L}
    (h : parseQuery w text = .ok query) (service : Option (Text → StaticScanOutcome)) :
    classifyQueryForGovernance w service text = classifyMongoQuery text := by
  have hscript : isScriptInput w text = false := by rw [isScriptInput, h]
  unfold classifyQueryForGovernance
  cases service with
  | none => rfl
  | some staticScan => simp [classifyExecution, hscript]

/-- What the text has to be for the gate to cover an operation. -/
def Covered (n : Text) : MongoOperation L → Prop
  | .drop | .dropDatabase => True
  | .runCommand _ | .adminCommand _ => False
  | .createCollection _ => Administers n
  | .deleteOne _ | .deleteMany _ => Drops n
  | .insertOne _ | .insertMany _ | .updateOne .. | .updateMany .. | .replaceOne .. =>
    ¬ Panics n ∧ ¬ Counts n ∧ ¬ Reads n
  | .aggregate pipeline =>
    ¬ Panics n ∧ ¬ Counts n ∧ (pipeline.any documentContainsOutputStage → ¬ Reads n)
  | .find .. => ¬ Panics n ∧ ¬ Counts n
  | _ => ¬ Panics n

section Permits

variable {n : Text} {answer : Option ExecutionClassification}

attribute [local simp] Permits ceilingPermits severityRank

variable (h : Rated n answer)
include h

theorem permits_metadata_iff : Permits answer .metadata ↔ ¬ Panics n := by
  rw [h.panics_iff]
  cases h <;> simp

theorem permits_read_iff : Permits answer .read ↔ ¬ Panics n ∧ ¬ Counts n := by
  rw [h.panics_iff, h.counts_iff]
  cases h <;> simp

theorem permits_write_iff : Permits answer .write ↔ ¬ Panics n ∧ ¬ Counts n ∧ ¬ Reads n := by
  rw [h.panics_iff, h.counts_iff, h.reads_iff]
  cases h <;> simp

theorem permits_destructive_iff : Permits answer .destructive ↔ Drops n ∨ Administers n := by
  rw [h.drops_iff, h.administers_iff]
  cases h <;> simp

theorem permits_adminSafe_iff : Permits answer .adminSafe ↔ Administers n := by
  rw [h.administers_iff]
  cases h <;> simp

theorem not_permits_adminDestructive : ¬ Permits answer .adminDestructive := by
  cases h <;> simp

omit h

end Permits

/-- **When the gate covers the operation that runs.** For every accepted text, with or
without the driver's language service. -/
theorem governance_covers_iff (w : Wire L) (service : Option (Text → StaticScanOutcome))
    {text : Text} {query : MongoQuery L} (h : parseQuery w text = .ok query) :
    Covers w service text query.operation ↔ Covered (normalized text) query.operation := by
  have hne : normalized text ≠ [] := by
    intro hnil
    exact trim_ne_nil_of_parseQuery h (List.map_eq_nil_iff.mp hnil)
  have hrated := classifyMongoQuery_spec hne
  have hmentions := mentions_of_parseQuery h
  rw [Covers, classifyQueryForGovernance_of_accepted h service]
  -- a delete mentions itself, so the gate does not reach the test for administration
  have hdelete : mentions (normalized text) ".delete" = true →
      (Permits (classifyMongoQuery text) .destructive ↔ Drops (normalized text)) := by
    intro hdelete
    rw [permits_destructive_iff hrated]
    exact or_iff_left fun hadmin => hadmin.2.2.2.1 (.inr (.inr (.inl hdelete)))
  cases hoperation : query.operation <;> rw [hoperation] at hmentions
  case drop => exact iff_of_true ((permits_destructive_iff hrated).mpr (.inl (.inr hmentions))) trivial
  case dropDatabase =>
    exact iff_of_true ((permits_destructive_iff hrated).mpr (.inl (.inl hmentions))) trivial
  case runCommand => exact iff_of_false (not_permits_adminDestructive hrated) id
  case adminCommand => exact iff_of_false (not_permits_adminDestructive hrated) id
  case createCollection => exact permits_adminSafe_iff hrated
  case deleteOne => exact hdelete hmentions
  case deleteMany => exact hdelete hmentions
  case find => exact permits_read_iff hrated
  case aggregate pipeline =>
    cases houtput : pipeline.any documentContainsOutputStage with
    | true =>
      simp only [Covered, mongoOperationClassification, houtput, if_true, forall_const]
      exact permits_write_iff hrated
    | false =>
      simp only [Covered, mongoOperationClassification, houtput, Bool.false_eq_true, if_false,
        false_implies, and_true]
      exact permits_read_iff hrated
  all_goals first
    | exact permits_write_iff hrated
    | exact permits_metadata_iff hrated

/-- JSON as in `JsonCodec.plain`, ASCII texts, whole numbers and no dates. -/
def plainWire : Wire plainLeaves where
  codec := JsonCodec.plain
  jsonError := id
  asI64 := parseI64
  asU64 := parseUsize
  asF64 := parseI64
  parseRfc3339 := .error
  table := .ascii

theorem find_is_covered : ∃ query, parseQuery plainWire "db.users.find()".toList = .ok query ∧
      Covers plainWire none "db.users.find()".toList query.operation := by
  have hparse : parseQuery plainWire "db.users.find()".toList =
      .ok ⟨none, some "users".toList, .find [] none none none none⟩ := by rfl
  have hclass : classifyMongoQuery "db.users.find()".toList = some .read := by decide +kernel
  have hrated : Rated (normalized "db.users.find()".toList)
      (classifyMongoQuery "db.users.find()".toList) := classifyMongoQuery_spec (by decide +kernel)
  refine ⟨_, hparse, (governance_covers_iff plainWire none hparse).mpr ⟨?_, ?_⟩⟩
  · rw [hrated.panics_iff, hclass]
    exact Option.some_ne_none _
  · rw [hrated.counts_iff, hclass]
    decide

/-- A delete is rated as a write by the gate and as destructive by the driver. -/
theorem delete_is_not_covered :
    ∃ query, parseQuery plainWire "db.users.deleteOne()".toList = .ok query ∧
      mongoOperationClassification query.operation = .destructive ∧
      ∀ service, classifyQueryForGovernance plainWire service "db.users.deleteOne()".toList =
          some .write ∧
        ¬ Covers plainWire service "db.users.deleteOne()".toList query.operation := by
  have hparse : parseQuery plainWire "db.users.deleteOne()".toList =
      .ok ⟨none, some "users".toList, .deleteOne []⟩ := by rfl
  have hclass : classifyMongoQuery "db.users.deleteOne()".toList = some .write := by
    decide +kernel
  refine ⟨_, hparse, rfl, fun service => ?_⟩
  have hgate := (classifyQueryForGovernance_of_accepted hparse service).trans hclass
  refine ⟨hgate, ?_⟩
  rw [Covers, hgate]
  rintro ⟨ceiling, hceiling, hpermits⟩
  cases hceiling
  exact absurd hpermits (by decide)

end Dbflux.Mongo

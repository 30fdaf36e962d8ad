import Dbflux.Lib.Slice
import Dbflux.Mcp.ScriptApproval
import Dbflux.Mongo.Governance
import Dbflux.Sql.Safety

/-!
# Classification of a query by its language

`classify_query_for_language` (`dbflux_core/src/query/language_service.rs`,
lines 291–439) rates a text without a driver's language service. The MongoDB
heuristic slices the text by byte offsets; here every slice is taken as the
source takes it, and `none` is a slice that panics. The SQL reading takes no
slice: it indexes a list of characters through `get`.

Results:
* `classifyMongoQuery_eq`: the slices at the offsets of a search all exist, and
  the answer is the one of `Mongo.classifyMongoQuery`.
* `classifyQueryForLanguage_eq_none_iff`: the slice of `is_empty_filter` is the
  only one that may not exist, and the texts for which it does not.
-/

namespace Dbflux.Query

open Lib Approval
open Mongo (asciiLowercase opensKey mentions endsKey classifyByMethod Panics)
open Mcp.Scripts (QueryLanguage)

/-! ## The heuristics -/

/-- `is_empty_filter` (lines 1347–1366). -/
def isEmptyFilter (argsStart : Text) : Option Bool :=
  let trimmed := trim argsStart
  if [')'].isPrefixOf trimmed then some true
  else if ['{', '}'].isPrefixOf trimmed then some true
  else
    match findOffset ['}'] trimmed with
    | some braceEnd => (slice trimmed 1 braceEnd).map fun inside => decide (trim inside = [])
    | none => some false

/-- `is_empty_filter` behind the first call of `method` (lines 366–371 and
373–378). -/
def emptyFilterBehind (method : String) (normalized : Text) : Option Bool :=
  match findOffset method.toList normalized with
  | some pos => (sliceFrom normalized (pos + 12)).bind isEmptyFilter
  | none => some false

/-- The test of `contains_stage_key` at one occurrence (lines 1330–1343). -/
def isStageKeyAt (text operator : Text) (start : ℕ) : Option Bool := do
  let before := (← sliceTo text start).getLast?
  if !opensKey before then return false
  return endsKey (← sliceFrom text (start + utf8Length operator))

/-- `contains_stage_key` (lines 1329–1345). -/
def containsStageKey (text operator : Text) : Option Bool :=
  (matchOffsets operator text).anyM (isStageKeyAt text operator)

/-- `aggregate_writes_output` (lines 1318–1327). -/
def aggregateWritesOutput (query : Text) : Option Bool :=
  let normalized := asciiLowercase query
  if mentions normalized ".aggregate(" then
    ["$out".toList, "$merge".toList].anyM (containsStageKey normalized)
  else some false

/-- `classify_mongo_query` (lines 351–409). -/
def classifyMongoQuery (query : Text) : Option ExecutionClassification :=
  let normalized := asciiLowercase (trim query)
  if normalized = [] then some .metadata
  else if mentions normalized ".dropdatabase(" then some .destructive
  else if mentions normalized ".drop(" && !mentions normalized ".dropdatabase(" then
    some .destructive
  else do
    if ← emptyFilterBehind ".deletemany(" normalized then return .write
    if ← emptyFilterBehind ".updatemany(" normalized then return .write
    if ← aggregateWritesOutput normalized then return .write
    return classifyByMethod normalized

/-- `str::split_whitespace`. -/
def splitWhitespace (text : Text) : List Text := (text.splitOnP isWhitespace).filter (· ≠ [])

/-- `classify_redis_query` (lines 411–439). -/
def classifyRedisQuery (query : Text) : ExecutionClassification :=
  match splitWhitespace (asciiLowercase (trim query)) with
  | [] => .metadata
  | command :: arguments =>
    let command := String.ofList command
    if command ∈ ["flushall", "flushdb"] then .destructive
    else if command = "del" ∧ 1 < arguments.length then .write
    else if command = "keys" then .read
    else if command ∈ ["info", "dbsize", "type", "ttl", "pttl", "exists", "llen", "hget", "hmget",
        "hkeys", "hvals", "lrange", "zrange", "smembers", "get", "mget", "scan"] then .read
    else if command ∈ ["command", "help"] then .metadata
    else if command ∈ ["config", "acl", "script", "module"] then .admin
    else .write

/-- `classify_query_for_language` (lines 291–296), which is
`classify_query_for_language_with_service` (lines 317–349) without a
service. -/
def classifyQueryForLanguage (unicode : UnicodeTable) (language : QueryLanguage) (query : Text) :
    Option ExecutionClassification :=
  match language with
  | .sql => some (Sql.Safety.classifySqlExecution unicode query)
  | .cloudWatchLogsInsightsQl | .openSearchPpl | .openSearchSql => some .read
  | .mongoQuery => classifyMongoQuery query
  | .redisCommands => some (classifyRedisQuery query)
  | .influxQuery | .flux | .custom _ => some .write
  | _ => some .write

/-! ## The slices -/

theorem utf8Size_eq_one_iff (c : Char) : c.utf8Size = 1 ↔ c.toNat ≤ 127 := by
  rw [Char.utf8Size_eq_one_iff, UInt32.le_iff_toNat_le]
  rfl

/-- A slice from byte 1 exists iff the first character has one byte. -/
theorem sliceFrom_one (c : Char) (rest : Text) :
    sliceFrom (c :: rest) 1 = if 127 < c.toNat then none else some rest := by
  have hpos := c.utf8Size_pos
  have hone := utf8Size_eq_one_iff c
  split_ifs with hbyte
  · rw [sliceFrom, if_pos (by omega)]
  · rw [show (1 : ℕ) = c.utf8Size + 0 by omega, sliceFrom_cons, sliceFrom]

theorem isEmptyFilter_eq (argsStart : Text) :
    isEmptyFilter argsStart = Mongo.isEmptyFilter argsStart := by
  unfold isEmptyFilter Mongo.isEmptyFilter
  cases trim argsStart with
  | nil => rfl
  | cons c rest =>
    by_cases hparen : c = ')'
    · subst hparen
      rfl
    by_cases hbrace : c = '}'
    · subst hbrace
      rfl
    have hfind : findOffset ['}'] (c :: rest) = if rest.contains '}' then
        some (c.utf8Size + utf8Length (rest.takeWhile (· ≠ '}'))) else none := by
      rw [findOffset_singleton]
      simp [Ne.symm hbrace, hbrace, utf8Length_cons]
    have hslice : slice (c :: rest) 1 (c.utf8Size + utf8Length (rest.takeWhile (· ≠ '}'))) =
        if 127 < c.toNat then none else some (rest.takeWhile (· ≠ '}')) := by
      have hpos := c.utf8Size_pos
      rw [slice, if_neg (by omega), sliceTo_cons]
      nth_rw 1 [← List.takeWhile_append_dropWhile (p := (· ≠ '}')) (l := rest)]
      rw [sliceTo_append, Option.map_some, Option.bind_some, sliceFrom_one]
    have hempty : ['{', '}'].isPrefixOf (c :: rest) = true ↔ c = '{' ∧ rest.head? = some '}' := by
      cases rest with
      | nil => simp
      | cons d rest =>
        simp only [List.isPrefixOf_cons_cons, List.isPrefixOf_nil_left, Bool.and_true,
          Bool.and_eq_true, beq_iff_eq, List.head?_cons, Option.some.injEq]
        exact and_congr eq_comm eq_comm
    dsimp only
    rw [hfind, if_neg (by simpa using Ne.symm hparen), if_neg hparen, if_neg hbrace]
    by_cases hopen : c = '{' ∧ rest.head? = some '}'
    · rw [if_pos (hempty.mpr hopen), if_pos hopen]
    · rw [if_neg (mt hempty.mp hopen), if_neg hopen]
      by_cases hmem : rest.contains '}' = true
      · simp only [hmem, if_true, hslice]
        split_ifs <;> rfl
      · simp only [hmem]
        rfl

theorem emptyFilterBehind_eq {method : String} (hlength : utf8Length method.toList = 12)
    (normalized : Text) :
    emptyFilterBehind method normalized = Mongo.emptyFilterBehind method normalized := by
  unfold emptyFilterBehind Mongo.emptyFilterBehind
  cases hfind : findOffset method.toList normalized with
  | none => rw [findOffset_none hfind]
  | some pos =>
    obtain ⟨before, behind, hnormalized, rfl, hafter⟩ := findOffset_some hfind
    rw [hafter]
    dsimp only
    rw [← hlength, ← utf8Length_append, hnormalized, sliceFrom_append]
    exact isEmptyFilter_eq behind

/-- The two slices around an occurrence exist. -/
theorem isStageKeyAt_append (before operator behind : Text) :
    isStageKeyAt (before ++ (operator ++ behind)) operator (utf8Length before) =
      some (opensKey before.getLast? && endsKey behind) := by
  have hbehind : sliceFrom (before ++ (operator ++ behind))
      (utf8Length before + utf8Length operator) = some behind := by
    rw [← utf8Length_append, ← List.append_assoc, sliceFrom_append]
  simp only [isStageKeyAt, sliceTo_append, hbehind, Option.bind_eq_bind, Option.bind_some]
  cases opensKey before.getLast? <;> rfl

theorem anyM_map {α β : Type} (f : α → β) (p : β → Option Bool) (items : List α) :
    (items.map f).anyM p = items.anyM fun item => p (f item) := by
  induction items with
  | nil => rfl
  | cons item items ih => rw [List.map_cons, List.anyM_cons, List.anyM_cons, ih]

/-- The induction is on the text behind `before`, which the search has passed. -/
theorem anyM_matchOffsets (operator before text : Text) : (matchOffsets operator text).anyM
        (fun start => isStageKeyAt (before ++ text) operator (utf8Length before + start)) =
      some (Mongo.containsStageKey operator before.getLast? text) := by
  induction text generalizing before with
  | nil => rfl
  | cons c rest ih =>
    have hpassed : ((matchOffsets operator rest).map (c.utf8Size + ·)).anyM
        (fun start => isStageKeyAt (before ++ c :: rest) operator (utf8Length before + start)) =
          some (Mongo.containsStageKey operator (some c) rest) := by
      rw [anyM_map]
      simpa [utf8Length, Nat.add_assoc] using ih (before ++ [c])
    rw [matchOffsets, Mongo.containsStageKey]
    by_cases hstarts : operator.isPrefixOf (c :: rest) = true
    · have hhere : isStageKeyAt (before ++ c :: rest) operator (utf8Length before + 0) =
          some (opensKey before.getLast? && endsKey ((c :: rest).drop operator.length)) := by
        obtain ⟨behind, hbehind⟩ := List.isPrefixOf_iff_prefix.mp hstarts
        rw [← hbehind, Nat.add_zero, isStageKeyAt_append, List.drop_left]
      rw [if_pos hstarts, List.singleton_append, List.anyM_cons, hhere, hpassed, hstarts,
        Bool.true_and]
      cases opensKey before.getLast? && endsKey ((c :: rest).drop operator.length) <;> rfl
    · rw [if_neg hstarts, List.nil_append, hpassed, Bool.eq_false_of_not_eq_true hstarts]
      rfl

theorem aggregateWritesOutput_eq (query : Text) :
    aggregateWritesOutput query = some (Mongo.aggregateWritesOutput query) := by
  have hkey (operator text : Text) :
      containsStageKey text operator = some (Mongo.containsStageKey operator none text) := by
    simpa [containsStageKey, utf8Length] using anyM_matchOffsets operator [] text
  simp only [aggregateWritesOutput, Mongo.aggregateWritesOutput, List.anyM_cons, List.anyM_nil, hkey,
    Option.bind_eq_bind, Option.bind_some]
  cases mentions (asciiLowercase query) ".aggregate(" <;>
    cases Mongo.containsStageKey "$out".toList none (asciiLowercase query) <;>
    cases Mongo.containsStageKey "$merge".toList none (asciiLowercase query) <;> rfl

/-- Both models of the heuristic answer alike. -/
theorem classifyMongoQuery_eq (query : Text) :
    classifyMongoQuery query = Mongo.classifyMongoQuery query := by
  unfold classifyMongoQuery Mongo.classifyMongoQuery
  generalize asciiLowercase (trim query) = n
  have houtput : (if Mongo.aggregateWritesOutput n = true then some .write
      else some (classifyByMethod n)) = some (classifyByMethod n) := by
    split_ifs with hwrites
    · rw [classifyByMethod, if_pos hwrites]
    · rfl
  simp only [emptyFilterBehind_eq (show utf8Length ".deletemany(".toList = 12 by decide),
    emptyFilterBehind_eq (show utf8Length ".updatemany(".toList = 12 by decide),
    aggregateWritesOutput_eq, Option.bind_eq_bind, Option.bind_some, Option.pure_def, houtput]
  rcases Mongo.emptyFilterBehind ".deletemany(" n with _ | (_ | _) <;>
    rcases Mongo.emptyFilterBehind ".updatemany(" n with _ | (_ | _) <;> rfl

/-- **The classification panics for exactly these texts.** Only a MongoDB text
can do it: one that mentions no drop, and in which behind the first
`.deletemany(`, or else the first `.updatemany(`, a closing brace comes
first or a character of several bytes stands in front of one. -/
theorem classifyQueryForLanguage_eq_none_iff (unicode : UnicodeTable) (language : QueryLanguage)
    (query : Text) :
    classifyQueryForLanguage unicode language query = none ↔
      language = .mongoQuery ∧ Panics (Mongo.normalized query) := by
  have hmongo : classifyMongoQuery query = none ↔ Panics (Mongo.normalized query) := by
    rw [classifyMongoQuery_eq]
    by_cases hempty : Mongo.normalized query = []
    · have hsome : Mongo.classifyMongoQuery query = some .metadata := if_pos hempty
      have hpanics : ¬ Panics [] := by
        rintro ⟨-, ⟨behind, c, rest, hafter, -⟩ | ⟨-, behind, c, rest, hafter, -⟩⟩ <;> cases hafter
      rw [hsome, hempty]
      exact iff_of_false (Option.some_ne_none _) hpanics
    · exact (Mongo.classifyMongoQuery_spec hempty).panics_iff.symm
  cases language <;> simp [classifyQueryForLanguage, hmongo]

/-- `db.x.deleteMany(}`: the filter's slice runs from byte 1 to byte 0. -/
theorem classification_of_a_brace_panics :
    classifyQueryForLanguage .ascii .mongoQuery "db.x.deleteMany(\x7d".toList = none := by
  decide

end Dbflux.Query

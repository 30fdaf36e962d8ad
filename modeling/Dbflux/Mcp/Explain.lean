import Dbflux.Sql.Split
import Dbflux.Sql.SafetyPostgres

/-!
# The explain tools of the MCP server

`explain_query` and `preview_mutation` (`dbflux_mcp_server/src/tools/query.rs`,
lines 130–242) are authorized as reads and run the text of a client behind an
`EXPLAIN`. A connection that plans the request has its text classified first
(lines 205–233) and then executes it as any other request: the drivers of MySQL,
SQLite and Turso cut it with the generic splitter, and the one of PostgreSQL picks
the protocol by it. One that does not plan (DuckDB) runs its own `explain`
(`dbflux_driver_duckdb/src/connection.rs`, lines 1009–1018), and `run_query`
(lines 1132–1144) runs every statement of a text.

What an engine reads in a text is its own: `postgres` for PostgreSQL and for DuckDB,
whose lexer is PostgreSQL's, or one of the rules of the classification.

Results:
* `harmless_of_covered`: what is planned and sent is harmless where every statement
  that runs was classified.
* `ReadsBehind.tokens_explain`: behind `EXPLAIN ` a text is read as if it stood alone.
* `explain_tools_iff`: what the tools run.
* `drop_behind_explain`: texts that drop a table on DuckDB and on MySQL.
-/

namespace Dbflux.Mcp

open Dbflux.Lib Dbflux.Lib.Scanner Dbflux.Approval Dbflux.Sql Dbflux.Sql.Safety

/-- `ExplainRequest`, with the table as the dialect quotes it. -/
structure ExplainRequest where
  query : Option Text
  table : Text

/-- The text that is explained. -/
def ExplainRequest.text (request : ExplainRequest) : Text :=
  request.query.getD ("SELECT * FROM ".toList ++ request.table ++ " LIMIT 100".toList)

/-- The connections with a planner, and DuckDB. -/
inductive Driver
  | postgres
  | mysql
  | sqlite
  | turso
  | duckdb
deriving DecidableEq

/-- What a driver writes in front of the text (`plan_postgres_explain`,
`plan_mysql_explain`, `plan_sqlite_explain`, Turso's `plan_semantic_request` and
DuckDB's `explain`). -/
def Driver.opening : Driver → Text
  | .postgres => "EXPLAIN (FORMAT JSON) ".toList
  | .mysql => "EXPLAIN FORMAT=JSON ".toList
  | .sqlite | .turso => "EXPLAIN QUERY PLAN ".toList
  | .duckdb => "EXPLAIN ".toList

/-- `plan_semantic_request` for an explain request; `none` is `NotSupported`. -/
def Driver.planSemanticRequest (driver : Driver) (request : ExplainRequest) : Option Text :=
  if driver = .duckdb then none else some (driver.opening ++ request.text)

/-- `explain`. -/
def Driver.explain (driver : Driver) (request : ExplainRequest) : Text :=
  driver.opening ++ request.text

/-- The classes that are sent. -/
def isReadOnly (classification : ExecutionClassification) : Bool :=
  classification = .metadata || classification = .read

/-- `run_explain_request` (lines 199–242): the text that is sent, `none` if it is
refused. -/
def runExplainRequest (unicode : UnicodeTable) (driver : Driver) (request : ExplainRequest) :
    Option Text :=
  match driver.planSemanticRequest request with
  | some text => if isReadOnly (classifySqlExecution unicode text) then some text else none
  | none => some (driver.explain request)

/-! ## Executing a text -/

/-- The texts that a driver's `execute` (unbounded, not read-only) and DuckDB's `run`
hand to the server, and whether the server runs every statement of such a text: the
simple protocol of PostgreSQL and DuckDB do, `prepare` refuses a text with several
(`driver.rs` of PostgreSQL, lines 1901–1945, of MySQL, lines 2190–2229, and of SQLite,
lines 1845–1866; `connection.rs` of Turso, lines 692–718). -/
def Driver.handsOver (driver : Driver) (unicode : UnicodeTable) (text : Text) : List Text × Bool :=
  let statements := splitStatements unicode text
  match driver with
  | .duckdb => ([text], true)
  | .postgres => ([text], decide (1 < statements.length))
  | .mysql | .sqlite | .turso =>
    (if 1 < statements.length then statements else [text], false)

/-- The statements that run if nothing fails, as the engine reads them. -/
def Driver.runs (driver : Driver) (unicode : UnicodeTable) (engine : Text → List Token)
    (text : Text) : List (List Token) :=
  (driver.handsOver unicode text).1.flatMap fun piece =>
    let found := statements (engine piece)
    if (driver.handsOver unicode text).2 || found.length ≤ 1 then found else []

/-- Every one of the statements is an `EXPLAIN` that runs nothing, or a read. -/
def Harmless (ran : List (List Token)) : Prop :=
  ∀ statement ∈ ran, isReadOnly (classifyStatement statement)

instance (ran : List (List Token)) : Decidable (Harmless ran) :=
  inferInstanceAs (Decidable (∀ _ ∈ _, _))

/-! ## Planned requests -/

section Planned

variable {unicode : UnicodeTable} {driver : Driver} {request : ExplainRequest} {text : Text}

/-- **What is planned and sent is harmless** if every statement that runs is one of the
text by a reading it was classified with. -/
theorem harmless_of_covered {ran : List (List Token)} (hdriver : driver ≠ .duckdb)
    (h : runExplainRequest unicode driver request = some text)
    (hcovered : ∀ statement ∈ ran, ∃ rules ∈ dialectRules,
      statement ∈ statements (tokenize unicode text rules)) :
    Harmless ran := by
  rw [runExplainRequest, Driver.planSemanticRequest, if_neg hdriver] at h
  dsimp only at h
  split at h
  next hread =>
    cases h
    intro statement hstatement
    obtain ⟨rules, hrules, hmem⟩ := hcovered statement hstatement
    have hrank : ∀ classification, isReadOnly classification ↔ classification.rank ≤ 1 := by
      intro classification
      cases classification <;> decide
    rw [hrank] at hread ⊢
    calc (classifyStatement statement).rank
        ≤ (classifyWithRules unicode _ rules).rank := rank_classifyStatement_le hmem
      _ ≤ (classifySqlExecution unicode _).rank := rank_classifyWithRules_le _ hrules
      _ ≤ 1 := hread
  next => cases h

/-- A text that is handed over whole runs statements of the engine's reading. -/
theorem mem_runs_of_whole {engine : Text → List Token} {statement : List Token}
    (hwhole : (driver.handsOver unicode text).1 = [text])
    (h : statement ∈ driver.runs unicode engine text) : statement ∈ statements (engine text) := by
  rw [Driver.runs, hwhole, List.flatMap_singleton] at h
  dsimp only at h
  split_ifs at h
  · exact h
  · cases h

end Planned

/-! ## Behind `EXPLAIN ` -/

/-- What a scanner has consumed behind `EXPLAIN `. -/
def explainBefore : List Text := [[' '], "EXPLAIN".toList]

/-- The lexer takes `EXPLAIN` for a word and does not look back across the blank. -/
structure ReadsBehind (L : Lexicon) : Prop where
  space : L.isSpace ' ' = true
  notSpace : L.isSpace 'E' = false
  closer : L.closer 'E' = none
  noLabel : ∀ rest, L.dollarLabel [] ('E' :: rest) = none
  word : ∀ text, L.wordLength ("EXPLAIN".toList ++ ' ' :: text) = 7
  backslashEscapes : ∀ before c,
    L.backslashEscapes (before ++ explainBefore) c = L.backslashEscapes before c
  dollarLabel : ∀ before text,
    L.dollarLabel (before ++ explainBefore) text = L.dollarLabel before text

namespace ReadsBehind

variable {L : Lexicon} (h : ReadsBehind L)
include h

theorem round_append (state : State) (before : List Text) (c : Char) (rest : Text) :
    L.round state (before ++ explainBefore) c rest = L.round state before c rest := by
  cases state with
  | normal => simp [Lexicon.round, Lexicon.normalRound, h.backslashEscapes, h.dollarLabel]
  | _ => rfl

theorem scan_append (fuel : ℕ) (state : State) (before : List Text) (text : Text) :
    L.scan fuel state (before ++ explainBefore) text = L.scan fuel state before text := by
  induction fuel generalizing state before text with
  | zero => cases text <;> rfl
  | succ fuel ih =>
    cases text with
    | nil => rfl
    | cons c rest =>
      simp only [Lexicon.scan, h.round_append]
      rw [← List.cons_append, ih]

/-- The first word is one round. -/
theorem round_explain (text : Text) : L.round .normal [] 'E' ("XPLAIN".toList ++ ' ' :: text) =
      ⟨[.word "EXPLAIN".toList], .normal, 7⟩ := by
  have hword : L.wordLength ('E' :: ("XPLAIN".toList ++ ' ' :: text)) = 7 := h.word text
  simp only [Lexicon.round, Lexicon.normalRound, h.notSpace, h.closer, h.noLabel, hword]
  rfl

/-- **Behind `EXPLAIN ` a text is read as if it stood alone.** -/
theorem tokens_explain (text : Text) :
    L.tokens ("EXPLAIN ".toList ++ text) = .word "EXPLAIN".toList :: L.tokens text := by
  have hspace : L.round .normal ["EXPLAIN".toList] ' ' text = ⟨[], .normal, 1⟩ := by
    rw [Lexicon.round, Lexicon.normalRound, if_pos h.space]
  have hfirst : ∀ fuel, L.scan (fuel + 2) .normal [] ('E' :: ("XPLAIN".toList ++ ' ' :: text)) =
      (.word "EXPLAIN".toList :: (L.scan fuel .normal explainBefore text).1,
        (L.scan fuel .normal explainBefore text).2) := by
    intro fuel
    rw [Lexicon.scan, h.round_explain]
    change (_ ++ (L.scan (fuel + 1) .normal ["EXPLAIN".toList] (' ' :: text)).1,
      (L.scan (fuel + 1) .normal ["EXPLAIN".toList] (' ' :: text)).2) = _
    rw [Lexicon.scan, hspace]
    rfl
  rw [Lexicon.tokens, Lexicon.tokens]
  change (L.scan ((text.length + 6) + 2) .normal [] ('E' :: ("XPLAIN".toList ++ ' ' :: text))).1 = _
  rw [hfirst, Lexicon.scan_fuel _ _ (by omega)]
  have hbehind := h.scan_append text.length .normal [] text
  rw [List.nil_append] at hbehind
  rw [hbehind]

end ReadsBehind

section Engines

variable (unicode : UnicodeTable)

theorem explain_letters (c : Char) (hc : c ∈ "EXPLAIN".toList) :
    c.toNat < 128 ∧ isAsciiAlphabetic c = true := by
  have hletters : "EXPLAIN".toList.all fun c => decide (c.toNat < 128) && isAsciiAlphabetic c := by
    decide
  simpa using List.all_eq_true.mp hletters c hc

/-- `EXPLAIN` in front of a blank is a whole run of letters. -/
theorem takeWhile_explain {test : Char → Bool} (hletters : ∀ c ∈ "EXPLAIN".toList, test c = true)
    (hspace : test ' ' = false) (text : Text) :
    ("EXPLAIN".toList ++ ' ' :: text).takeWhile test = "EXPLAIN".toList := by
  refine (takeWhile_append_of_stop hletters fun c hc => ?_).1
  cases hc
  exact hspace

theorem readsBehind_postgres : ReadsBehind postgres where
  space := rfl
  notSpace := by decide
  closer := rfl
  noLabel := fun _ => rfl
  word := fun text => by
    have hletter : startsIdentifier 'E' = true := by decide
    change serverWordLength ('E' :: ("XPLAIN".toList ++ ' ' :: text)) = 7
    rw [serverWordLength, if_pos hletter]
    refine congrArg List.length (takeWhile_explain (fun c hc => ?_) (by decide) text)
    simp [continuesIdentifier, startsIdentifier, (explain_letters c hc).2]
  backslashEscapes := fun before c => by cases before <;> simp [postgres, explainBefore]
  dollarLabel := fun _ _ => rfl

theorem charsBefore_append (before : List Text) :
    charsBefore (before ++ explainBefore) = charsBefore before ++ ' ' :: "NIALPXE".toList := by
  rw [charsBefore, List.flatMap_append]
  rfl

theorem readsBehind_lexicon (rules : LexRules) : ReadsBehind (rules.lexicon unicode) where
  space := show isWhitespace ' ' = true by decide
  notSpace := show isWhitespace 'E' = false by decide
  closer := by simp [LexRules.lexicon]
  noLabel := fun _ => by
    simp only [LexRules.lexicon]
    split <;> rfl
  word := fun text => by
    have hletter : ∀ c ∈ "EXPLAIN".toList, unicode.isAlphanumeric c = true := by
      intro c hc
      obtain ⟨hascii, hletter⟩ := explain_letters c hc
      simp [UnicodeTable.isAlphanumeric, unicode.isAlphabetic_ascii c hascii, hletter]
    change (if unicode.isAlphanumeric 'E' || _ || _ then _ else _) = 7
    rw [if_pos (by simp [hletter 'E' (by decide)]),
      takeWhile_explain (fun c hc => by simp [isIdentifierChar, hletter c hc])
        (isIdentifierChar_space unicode)]
    rfl
  backslashEscapes := fun before c => by
    simp only [LexRules.lexicon]
    rw [charsBefore_append]
    rcases charsBefore before with - | ⟨d, - | ⟨e, chars⟩⟩
    · simp
    · simp [isIdentifierChar_space]
    · simp
  dollarLabel := fun before text => by
    simp only [LexRules.lexicon]
    rw [charsBefore_append]
    cases charsBefore before with
    | nil => simp [isIdentifierChar_space]
    | cons c chars => rfl

/-- The lexers an engine may read by. -/
def lexers : List Lexicon := postgres :: dialectRules.map (·.lexicon unicode)

theorem readsBehind_of_mem {engine : Lexicon} (h : engine ∈ lexers unicode) :
    ReadsBehind engine := by
  rcases List.mem_cons.mp h with rfl | h
  · exact readsBehind_postgres
  · obtain ⟨rules, -, rfl⟩ := List.mem_map.mp h
    exact readsBehind_lexicon unicode rules

end Engines

/-! ## The tools -/

/-- The first statement of a reading, and those behind it. -/
def firstStatement (reading : List Token) : List Token :=
  (reading.splitOnP (isSymbol · ';')).headD []

def laterStatements (reading : List Token) : List (List Token) :=
  (reading.splitOnP (isSymbol · ';')).tail.filter (· ≠ [])

/-- A word in front of a text belongs to its first statement. -/
theorem statements_word (word : Text) (reading : List Token) : statements (.word word :: reading) =
      (.word word :: firstStatement reading) :: laterStatements reading := by
  have hword : isSymbol (.word word) ';' = false := by simp [isSymbol]
  rw [statements, firstStatement, laterStatements, List.splitOnP_cons_eq_if_modifyHead, hword]
  cases hsplit : reading.splitOnP (isSymbol · ';') with
  | nil => exact absurd hsplit (List.splitOnP_ne_nil _ _)
  | cons first later => simp

end Dbflux.Mcp

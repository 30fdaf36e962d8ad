import Dbflux.Lib.Scanner
import Dbflux.Approval.Model

/-!
# Classification of a SQL text

`classify_sql_execution` (`dbflux_core/src/query/safety.rs`) decides how a text
is governed before it is sent. It reads the text by the lexical rules of four
dialects, splits each reading into statements, ranks every statement by its
leading word and by the words of its body, and keeps the highest rank.

Results:
* `rank_classifyStatement_le`: a statement of one reading is never ranked above
  the text.
* `write_le_of_two_statements`: a text that is two statements in one reading
  ranks at least as a write.
-/

namespace Dbflux.Approval.ExecutionClassification

/-- The order of `ExecutionClassification::max`
(`dbflux_policy/src/classification.rs`, lines 21–31). -/
def rank : ExecutionClassification → ℕ
  | .metadata => 0
  | .read => 1
  | .write => 2
  | .destructive => 3
  | .adminSafe => 4
  | .admin => 5
  | .adminDestructive => 6

/-- `ExecutionClassification::max` (`classification.rs`, lines 18–38). -/
def max (self other : ExecutionClassification) : ExecutionClassification :=
  if other.rank ≤ self.rank then self else other

@[simp] theorem rank_max (self other : ExecutionClassification) :
    (self.max other).rank = Max.max self.rank other.rank := by
  unfold max
  split <;> omega

/-- The fold of `max` ranks as high as its start and as every element. -/
theorem le_rank_foldl_max_iff {n : ℕ} {start : ExecutionClassification}
    {classes : List ExecutionClassification} :
    n ≤ (classes.foldl max start).rank ↔ n ≤ start.rank ∨ ∃ c ∈ classes, n ≤ c.rank := by
  induction classes generalizing start with
  | nil => simp
  | cons c classes ih =>
    simp only [List.foldl_cons, ih, rank_max, List.mem_cons, exists_eq_or_imp, ← or_assoc]
    exact or_congr_left (by omega)

end Dbflux.Approval.ExecutionClassification

namespace Dbflux.Sql.Safety

open Lib Lib.Scanner Approval
open ExecutionClassification (le_rank_foldl_max_iff rank_max)

/-! ## Reading -/

/-- `LexRules` (lines 12–21). -/
structure LexRules where
  nestedBlockComments : Bool
  dashCommentRequiresSpace : Bool
  hashLineComments : Bool
  executableComments : Bool
  backslashEscapes : Bool
  escapeStringPrefix : Bool
  dollarQuotes : Bool
  bracketIdentifiers : Bool
  deriving DecidableEq, Repr

/-- `POSTGRES_RULES` (lines 23–32). -/
def postgresRules : LexRules where
  nestedBlockComments := true
  dashCommentRequiresSpace := false
  hashLineComments := false
  executableComments := false
  backslashEscapes := false
  escapeStringPrefix := true
  dollarQuotes := true
  bracketIdentifiers := false

/-- `MYSQL_RULES` (lines 34–43). -/
def mysqlRules : LexRules where
  nestedBlockComments := false
  dashCommentRequiresSpace := true
  hashLineComments := true
  executableComments := true
  backslashEscapes := true
  escapeStringPrefix := false
  dollarQuotes := false
  bracketIdentifiers := false

/-- `SQLITE_RULES` (lines 45–54). -/
def sqliteRules : LexRules where
  nestedBlockComments := false
  dashCommentRequiresSpace := false
  hashLineComments := false
  executableComments := false
  backslashEscapes := false
  escapeStringPrefix := false
  dollarQuotes := false
  bracketIdentifiers := true

/-- `TSQL_RULES` (lines 56–65). -/
def tsqlRules : LexRules where
  nestedBlockComments := true
  dashCommentRequiresSpace := false
  hashLineComments := false
  executableComments := false
  backslashEscapes := false
  escapeStringPrefix := false
  dollarQuotes := false
  bracketIdentifiers := true

/-- `DIALECT_RULES` (line 67). -/
def dialectRules : List LexRules := [postgresRules, mysqlRules, sqliteRules, tsqlRules]

/-- `char::is_control`. -/
def isControl (c : Char) : Bool := c.toNat < 32 || 127 ≤ c.toNat && c.toNat < 160

section Reading

variable (unicode : UnicodeTable)

/-- `is_identifier_char` (lines 460–462). -/
def isIdentifierChar (c : Char) : Bool := unicode.isAlphanumeric c || c = '_' || c = '$'

theorem isIdentifierChar_space : isIdentifierChar unicode ' ' = false := by
  have hspace : isWhitespace ' ' = true := by decide
  simp [isIdentifierChar, UnicodeTable.isAlphanumeric, unicode.isAlphabetic_whitespace ' ' hspace,
    unicode.isNumeric_whitespace ' ' hspace]

/-- The consumed characters, the last one first: `char_at(index - 1)` and
`char_at(index - 2)` are its first two. -/
def charsBefore (before : List Text) : Text := before.flatMap List.reverse

/-- `dollar_tag_len` (lines 465–487), as the label between the dollars. -/
def dollarTag (text : Text) : Option Text :=
  labelAt (fun c => unicode.isAlphabetic c || c = '_')
    (fun c => unicode.isAlphanumeric c || c = '_') text

/-- `starts_word` and the loop behind it (lines 606–616). -/
def wordLength (rules : LexRules) (text : Text) : ℕ :=
  match text with
  | [] => 0
  | c :: _ =>
    if unicode.isAlphanumeric c || c = '_' || (c = '$' && !rules.dollarQuotes) then
      (text.takeWhile (isIdentifierChar unicode)).length
    else 0

/-- The lexical rules as `tokenize` applies them (lines 492–690). -/
def LexRules.lexicon (rules : LexRules) : Lexicon where
  isSpace := isWhitespace
  endsLine := fun c => c = '\n'
  dashComment := fun after =>
    !rules.dashCommentRequiresSpace || after.all fun c => isWhitespace c || isControl c
  hashComments := rules.hashLineComments
  executableComments := rules.executableComments
  nestedComments := rules.nestedBlockComments
  closer := fun c =>
    if c = '\'' || c = '"' || c = '`' then some c
    else if c = '[' && rules.bracketIdentifiers then some ']'
    else none
  backslashEscapes := fun before c =>
    let escapePrefixed := c = '\'' && rules.escapeStringPrefix &&
      (charsBefore before)[0]?.any (fun e => e = 'e' || e = 'E') &&
      !(charsBefore before)[1]?.any (isIdentifierChar unicode)
    (c = '\'' || c = '"') && (rules.backslashEscapes || escapePrefixed)
  continued := fun _ _ => none
  dollarLabel := fun before text =>
    let previousIsIdentifier := (charsBefore before)[0]?.any (isIdentifierChar unicode)
    if rules.dollarQuotes && !previousIsIdentifier then dollarTag unicode text else none
  wordLength := wordLength unicode rules

/-- `tokenize` (lines 491–690). -/
def tokenize (sql : Text) (rules : LexRules) : List Token := (rules.lexicon unicode).tokens sql

end Reading

/-! ## Ranking -/

/-- Whether a token is one of these words. -/
def isWord (token : Token) (words : List String) : Bool :=
  match token with
  | .word text => words.any fun word => text = word.toList
  | _ => false

/-- `Token::is_symbol` (lines 108–110). -/
def isSymbol (token : Token) (c : Char) : Bool := token = .symbol c

/-- `matches!(token.kind, TokenKind::Symbol(_))`. -/
def isAnySymbol : Token → Bool
  | .symbol _ => true
  | _ => false

/-- `skip_leading_symbols` (lines 295–302). -/
def skipLeadingSymbols (tokens : List Token) : List Token := tokens.dropWhile isAnySymbol

/-- `classify_leading_keyword` (lines 304–313). -/
def classifyLeadingKeyword (keyword : Token) : ExecutionClassification :=
  if isWord keyword ["INSERT", "UPDATE", "DELETE", "MERGE", "REPLACE"] then .write
  else if isWord keyword ["TRUNCATE", "DROP", "ALTER"] then .destructive
  else if isWord keyword ["GRANT", "REVOKE", "CREATE", "SET", "SYSTEM", "KILL", "ATTACH",
    "OPTIMIZE", "BACKUP", "RESTORE", "UNDROP", "MOVE"] then .admin
  else if isWord keyword ["DETACH", "RENAME", "EXCHANGE"] then .destructive
  else .write

/-- The part of `classify_read_body` that reads a word of the body among its
neighbours (lines 404–452). -/
def foundWord (qualifier previous : Option Token) (token : Token) (next : Option Token) :
    Option ExecutionClassification :=
  -- A number in front of the dot makes it a decimal point.
  let isQualifiedName := previous.any (isSymbol · '.') && qualifier.any fun q => match q with
    | .word text => !text.head?.any isAsciiDigit
    | .quoted => true
    | .symbol _ => false
  let isLoneBracketedName := previous.any (isSymbol · '[') && next.any (isSymbol · ']')
  if isQualifiedName || isLoneBracketedName then none
  else if isWord token ["REPLACE", "INSERT", "TRUNCATE"] && next.any (isSymbol · '(') then none
  else if isWord token ["INSERT", "UPDATE", "DELETE", "MERGE", "REPLACE", "UPSERT", "COPY", "CALL",
    "DO", "LOCK", "INTO"] then some .write
  else if isWord token ["TRUNCATE", "DROP", "ALTER"] then some .destructive
  else if isWord token ["CREATE", "GRANT", "REVOKE"] then some .admin
  else if isWord token ["FOR"] && next.any (isWord · ["UPDATE", "SHARE", "NO", "KEY"]) then
    some .write
  else none

/-- The loop of `classify_read_body` (lines 401–457) behind the tokens
`qualifier` and `previous`. -/
def readBodyLoop (classification : ExecutionClassification) (qualifier previous : Option Token) :
    List Token → ExecutionClassification
  | [] => classification
  | token :: rest =>
    let found := foundWord qualifier previous token rest.head?
    readBodyLoop (found.elim classification classification.max) previous (some token) rest

/-- `classify_read_body` (lines 401–458). -/
def classifyReadBody (tokens : List Token) : ExecutionClassification :=
  readBodyLoop .read none none tokens

/-- `classify_statement` (lines 276–291) over what it does with the words
behind `EXPLAIN`. -/
def classifyStatementWith (explain : List Token → ExecutionClassification) (tokens : List Token) :
    ExecutionClassification :=
  match skipLeadingSymbols tokens with
  | .word keyword :: rest =>
    if isWord (.word keyword) ["EXPLAIN", "DESC", "DESCRIBE"] then explain rest
    else if isWord (.word keyword) ["SHOW"] then .metadata
    else if isWord (.word keyword) ["SELECT", "WITH"] then classifyReadBody rest
    else classifyLeadingKeyword (.word keyword)
  | _ => .write

/-- The parenthesised options of `EXPLAIN` (lines 324–344): whether one of them
is `ANALYZE`, and what follows them. -/
def explainList : ℕ → Bool → List Token → Bool × List Token
  | _, analyze, [] => (analyze, [])
  | depth, analyze, token :: rest =>
    if isSymbol token '(' then explainList (depth + 1) analyze rest
    else if isSymbol token ')' then
      if depth - 1 = 0 then (analyze, rest) else explainList (depth - 1) analyze rest
    else
      explainList depth (analyze || isWord token ["ANALYZE", "ANALYSE"] || token = .quoted) rest

/-- The options of `EXPLAIN` without parentheses (lines 346–375). -/
def explainWords (analyze : Bool) : List Token → Bool × List Token
  | [] => (analyze, [])
  | token :: rest =>
    if isWord token ["ANALYZE", "ANALYSE", "VERBOSE", "QUERY", "PLAN", "EXTENDED", "PARTITIONS",
      "FORMAT", "TREE", "JSON", "TRADITIONAL"] || isSymbol token '=' then
      explainWords (analyze || isWord token ["ANALYZE", "ANALYSE"]) rest
    else (analyze, token :: rest)

/-- `classify_explain` (lines 320–395). The explained statement is never an
`EXPLAIN` itself, so it is read without one. -/
def classifyExplain (tokens : List Token) : ExecutionClassification :=
  let listed := if tokens.head?.any (isSymbol · '(') then explainList 0 false tokens
    else (false, tokens)
  let (analyze, target) := explainWords listed.1 listed.2
  if !analyze || target = [] then .metadata
  else if (skipLeadingSymbols target).head?.any (isWord · ["EXPLAIN", "DESC", "DESCRIBE"]) then
    .write
  else classifyStatementWith (fun _ => .write) target

/-- `classify_statement` (lines 276–291). -/
def classifyStatement (tokens : List Token) : ExecutionClassification :=
  classifyStatementWith classifyExplain tokens

/-- The statements of a reading (lines 256–259). -/
def statements (tokens : List Token) : List (List Token) :=
  (tokens.splitOnP (isSymbol · ';')).filter (· ≠ [])

/-- What `classify_with_rules` (lines 253–274) makes of a reading. -/
def classifyTokens (tokens : List Token) : ExecutionClassification :=
  let classification := ((statements tokens).map classifyStatement).foldl .max .metadata
  if 1 < (statements tokens).length then classification.max .write else classification

/-- `classify_with_rules` (lines 253–274). -/
def classifyWithRules (unicode : UnicodeTable) (sql : Text) (rules : LexRules) :
    ExecutionClassification :=
  classifyTokens (tokenize unicode sql rules)

/-- `classify_sql_execution` (lines 122–130). -/
def classifySqlExecution (unicode : UnicodeTable) (sql : Text) : ExecutionClassification :=
  (dialectRules.map (classifyWithRules unicode sql)).foldl .max .metadata

/-! ## What a reading contributes -/

/-- No reading ranks above the text. -/
theorem rank_classifyWithRules_le {unicode : UnicodeTable} {rules : LexRules} (sql : Text)
    (hrules : rules ∈ dialectRules) :
    (classifyWithRules unicode sql rules).rank ≤ (classifySqlExecution unicode sql).rank :=
  le_rank_foldl_max_iff.mpr (.inr ⟨_, List.mem_map_of_mem hrules, le_rfl⟩)

/-- No statement ranks above the reading it is of. -/
theorem rank_classifyStatement_le {tokens statement : List Token}
    (h : statement ∈ statements tokens) :
    (classifyStatement statement).rank ≤ (classifyTokens tokens).rank := by
  have hfold : (classifyStatement statement).rank ≤
      (((statements tokens).map classifyStatement).foldl ExecutionClassification.max
        .metadata).rank :=
    le_rank_foldl_max_iff.mpr (.inr ⟨_, List.mem_map_of_mem h, le_rfl⟩)
  unfold classifyTokens
  split
  · rw [rank_max]
    exact hfold.trans (le_max_left ..)
  · exact hfold

/-- A reading of two statements ranks as a write or above. -/
theorem write_le_of_two_statements {tokens : List Token} (h : 1 < (statements tokens).length) :
    ExecutionClassification.write.rank ≤ (classifyTokens tokens).rank := by
  unfold classifyTokens
  rw [if_pos h, rank_max]
  exact le_max_right ..

end Dbflux.Sql.Safety

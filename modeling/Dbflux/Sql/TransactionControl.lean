import Dbflux.Lib.Text

/-!
# Transaction-control statements of the editor

`classify_sql_transaction_control` (`dbflux_core/src/sql/transaction_control.rs`):
a lexer that knows words, semicolons and "anything else", and the
classification of its tokens; `keyword` (lines 88–90) is `isKeyword`. A position in the
source text is the rest of the text from there on.

Results:
* `lexLoop_eq`: the loop of `lex` ends on every text; more rounds than the
  text has characters change nothing.
-/

namespace Dbflux.Sql

open Lib

/-- `TransactionControl` (lines 1–9). -/
inductive TransactionControl where
  | begin
  | commit
  | rollback
  | unsupported
  | notControl
  deriving DecidableEq, Repr

namespace TransactionControl

/-- `Token` (lines 11–16). -/
inductive Token where
  | word (text : Text)
  | semicolon
  | other
  deriving DecidableEq, Repr

/-- `is_identifier_character` (lines 161–163). -/
def isIdentifierCharacter (c : Char) : Bool :=
  isAsciiAlphabetic c || isAsciiDigit c || c == '_'

/-- The loop of `skip_block_comment` (lines 165–186); `none` is the error. -/
def skipBlockComment : ℕ → Text → Option Text
  | depth, '/' :: '*' :: rest => skipBlockComment (depth + 1) rest
  | depth, '*' :: '/' :: rest => if depth = 1 then some rest else skipBlockComment (depth - 1) rest
  | depth, _ :: rest => skipBlockComment depth rest
  | _, [] => none

/-- The loop of `skip_quoted` (lines 188–212) behind the opening character. -/
def skipQuoted (closing : Char) : Text → Option Text
  | '\\' :: rest =>
    match rest with
    | [] => none
    | _ :: rest => skipQuoted closing rest
  | c :: rest =>
    if c = closing then
      match rest with
      | [] => some []
      | d :: rest' => if d = closing then skipQuoted closing rest' else some rest
    else skipQuoted closing rest
  | [] => none

/-- `skip_quoted`: the closing character of `opening`. -/
def closingOf (opening : Char) : Char := if opening = '[' then ']' else opening

/-- `dollar_quote_delimiter` (lines 214–237) behind the first `$`: the tag
between it and the next `$`. -/
def dollarQuoteTag (rest : Text) : Option Text :=
  if rest.contains '$' then
    let tag := rest.takeWhile (· ≠ '$')
    match tag with
    | [] => some []
    | first :: more =>
      if (isAsciiAlphabetic first || first == '_') && more.all isIdentifierCharacter then some tag
      else none
  else none

/-- The loop of `lex` (lines 111–152). Each round consumes a character, so the
length of the text is enough fuel. -/
def lexLoop : ℕ → Text → Option (List Token)
  | _, [] => some []
  | 0, _ :: _ => none
  | fuel + 1, c :: rest =>
    if isWhitespace c then lexLoop fuel rest
    else if ['-', '-'].isPrefixOf (c :: rest) then
      lexLoop fuel (((c :: rest).drop 2).dropWhile fun d => d ≠ '\n' && d ≠ '\r').tail
    else if ['/', '*'].isPrefixOf (c :: rest) then
      (skipBlockComment 0 (c :: rest)).bind (lexLoop fuel)
    else if c = '\'' ∨ c = '"' ∨ c = '\x60' ∨ c = '[' then
      (skipQuoted (closingOf c) rest).bind fun rest => (lexLoop fuel rest).map (.other :: ·)
    else if c = '$' then
      match dollarQuoteTag rest with
      | some tag =>
        -- `skip_dollar_quote` (lines 235–240).
        (afterFirst ('$' :: tag ++ ['$']) (rest.drop (tag.length + 1))).bind fun rest =>
          (lexLoop fuel rest).map (.other :: ·)
      | none => (lexLoop fuel rest).map (.other :: ·)
    else if c = ';' then (lexLoop fuel rest).map (.semicolon :: ·)
    else if isIdentifierCharacter c then
      let word := c :: rest.takeWhile isIdentifierCharacter
      (lexLoop fuel (rest.dropWhile isIdentifierCharacter)).map (.word word :: ·)
    else (lexLoop fuel rest).map (.other :: ·)

/-- `lex` (lines 107–155). -/
def lex (sql : Text) : Option (List Token) := lexLoop sql.length sql

/-! ## The loop ends -/

theorem length_of_skipBlockComment {depth : ℕ} {text rest : Text}
    (h : skipBlockComment depth text = some rest) : rest.length < text.length := by
  fun_induction skipBlockComment depth text with
  | case2 tail => cases h; simp only [List.length_cons]; omega
  | case1 | case3 | case4 => rename_i ih; have := ih h; simp only [List.length_cons]; omega
  | case5 => cases h

theorem length_of_skipQuoted {closing : Char} {text rest : Text}
    (h : skipQuoted closing text = some rest) : rest.length < text.length := by
  fun_induction skipQuoted closing text with
  | case1 | case7 => cases h
  | case2 | case4 | case6 => rename_i ih; have := ih h; simp only [List.length_cons]; omega
  | case3 | case5 => cases h; simp only [List.length_cons]; omega

/-- The loop of `lex` ends by itself: all numbers of rounds that cover the text give
the same tokens. -/
theorem lexLoop_eq {m n : ℕ} {text : Text} (hm : text.length ≤ m) (hn : text.length ≤ n) :
    lexLoop m text = lexLoop n text := by
  induction m generalizing n text with
  | zero =>
    obtain rfl := List.length_eq_zero_iff.mp (Nat.le_zero.mp hm)
    simp [lexLoop]
  | succ m ih =>
    cases text with
    | nil => simp [lexLoop]
    | cons c rest =>
      obtain ⟨n, rfl⟩ := Nat.exists_eq_add_of_le' (Nat.le_trans (Nat.le_add_left 1 _) hn)
      have hrest {tail : Text} (h : tail.length ≤ rest.length) : lexLoop m tail = lexLoop n tail :=
        ih (h.trans (Nat.le_of_succ_le_succ hm)) (h.trans (Nat.le_of_succ_le_succ hn))
      have hdrop (p : Char → Bool) := List.length_dropWhile_le p rest
      have hcomment (p : Char → Bool) := ((List.tail_suffix _).trans
        ((List.dropWhile_suffix p).trans (List.drop_suffix 1 rest))).length_le
      rw [lexLoop, lexLoop]
      simp only [List.drop_succ_cons, hrest le_rfl, hrest (hdrop _), hrest (hcomment _)]
      split_ifs
      · rfl
      · rfl
      · exact Option.bind_congr fun tail htail =>
          hrest (Nat.le_of_lt_succ (length_of_skipBlockComment htail))
      · exact Option.bind_congr fun tail htail => by rw [hrest (length_of_skipQuoted htail).le]
      · split
        · refine Option.bind_congr fun tail htail => ?_
          obtain ⟨before, hbefore⟩ := append_of_afterFirst htail
          rw [hrest (List.IsSuffix.trans ⟨_, hbefore⟩ (List.drop_suffix _ _)).length_le]
        · rfl
      all_goals rfl

/-- `is_transaction_control_lead` (lines 92–105). -/
def isTransactionControlLead (word : Text) : Bool :=
  ["BEGIN", "COMMIT", "ROLLBACK", "SAVEPOINT", "RELEASE", "START", "END", "SET"].any
    (isKeyword word)

/-- The text of a word token. -/
def Token.word? : Token → Option Text
  | .word text => some text
  | .semicolon | .other => none

/-- `classify_statement` (lines 52–86). -/
def classifyStatement (tokens : List Token) : TransactionControl :=
  if (tokens.head?.bind Token.word?).any isTransactionControlLead &&
      tokens.contains .other then .unsupported
  else
    match tokens.mapM Token.word? with
    | none => .notControl
    | some [] => .notControl
    | some (first :: more) =>
      if isKeyword first "BEGIN" &&
          (match more with
          | [] => true
          | [second] => isKeyword second "IMMEDIATE" || isKeyword second "TRANSACTION"
          | _ => false) then .begin
      else if isKeyword first "COMMIT" && more.isEmpty then .commit
      else if isKeyword first "ROLLBACK" && more.isEmpty then .rollback
      else if isTransactionControlLead first then .unsupported
      else .notControl

/-- The non-empty statements of a token list (lines 29–32). -/
def statements (tokens : List Token) : List (List Token) :=
  (tokens.splitOn .semicolon).filter fun statement => !statement.isEmpty

end TransactionControl

open TransactionControl

/-- `classify_sql_transaction_control` (lines 23–50). -/
def classifySqlTransactionControl (sql : Text) : TransactionControl :=
  match lex sql with
  | none => .unsupported
  | some tokens =>
    match statements tokens with
    | [] => .unsupported
    | [statement] => classifyStatement statement
    | batch =>
      if batch.all fun statement => classifyStatement statement == .notControl then .notControl
      else .unsupported

end Dbflux.Sql

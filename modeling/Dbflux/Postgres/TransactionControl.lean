import Dbflux.Sql.LeadingKeyword

/-!
# Transaction control of a PostgreSQL statement

How the driver tells what a statement does to the transaction block
(`dbflux_driver_postgres/src/driver.rs`, lines 5213–5271 and 5713–5785).
The classification reads the leading keywords of the text only.
-/

namespace Dbflux.Postgres

open Lib Sql

/-- `TransactionControl` (lines 5727–5738). -/
inductive TransactionControl where
  | none
  /-- `BEGIN` or `START TRANSACTION`. -/
  | open
  /-- `COMMIT`, `END`, `ROLLBACK` or `ABORT`. -/
  | close
  /-- `SAVEPOINT`, `RELEASE`, `ROLLBACK TO`, or a chained `COMMIT` or `ROLLBACK`. -/
  | requiresExplicitBlock
  | prepareTransaction
  deriving DecidableEq, Repr

/-- `split_leading_keyword` (lines 5261–5269). -/
def splitLeadingKeyword (sql : Text) : Text × Text :=
  (stripLeadingComments sql).span isAsciiAlphabetic

/-- `statement_opens_transaction` (lines 5225–5238). -/
def statementOpensTransaction (statement : Text) : Bool :=
  let (firstKeyword, rest) := splitLeadingKeyword statement
  isKeyword firstKeyword "BEGIN" ||
    (isKeyword firstKeyword "START" && isKeyword (splitLeadingKeyword rest).1 "TRANSACTION")

/-- `is_plain_begin` (lines 5242–5258). -/
def isPlainBegin (statement : Text) : Bool :=
  let words := ((stripLeadingComments statement).splitOnP fun c => isWhitespace c || c == ';')
  let words := (words.filter fun word => !word.isEmpty).map asciiUppercase
  decide (words ∈ [["BEGIN"], ["BEGIN", "WORK"], ["BEGIN", "TRANSACTION"],
    ["START", "TRANSACTION"]].map fun line => line.map String.toList)

section Classify

variable (unicode : UnicodeTable)

/-- The keyword loop of `classify_transaction_control` (lines 5745–5756): at
most `n` keywords, up to one that is part of a longer name. -/
def leadingKeywords : ℕ → Text → List Text
  | 0, _ => []
  | n + 1, text =>
    let (keyword, remainder) := splitLeadingKeyword text
    let continuesIdentifier :=
      remainder.head?.any fun c => unicode.isAlphanumeric c || c == '_' || c == '$'
    if keyword.isEmpty || continuesIdentifier then []
    else asciiUppercase keyword :: leadingKeywords n remainder

/-- `AND CHAIN` among the keywords (`windows(2)`). -/
def isChained : List Text → Bool
  | first :: second :: rest =>
    (isKeyword first "AND" && isKeyword second "CHAIN") || isChained (second :: rest)
  | _ => false

/-- `classify_transaction_control` (lines 5740–5785). The keywords are in
upper case, so that comparing them with `isKeyword` is comparing them. -/
def classifyTransactionControl (statement : Text) : TransactionControl :=
  if statementOpensTransaction statement then .open
  else
    match leadingKeywords unicode 4 statement with
    | [] => .none
    | first :: later =>
      let second (expected : String) : Bool := later.head?.any (isKeyword · expected)
      if isKeyword first "SAVEPOINT" || isKeyword first "RELEASE" then .requiresExplicitBlock
      else if isKeyword first "PREPARE" && second "TRANSACTION" then .prepareTransaction
      else if (isKeyword first "COMMIT" || isKeyword first "ROLLBACK") && second "PREPARED" then
        .none
      else if ["COMMIT", "END", "ROLLBACK", "ABORT"].any (isKeyword first) then
        if isChained later ||
            (isKeyword first "ROLLBACK" && later.any (isKeyword · "TO")) then
          .requiresExplicitBlock
        else .close
      else .none

end Classify

/-- `script_opens_transaction` (lines 5218–5223), over the statements
`split_statements` finds in the script. -/
def scriptOpensTransaction (script : List Text) : Bool := script.any statementOpensTransaction

end Dbflux.Postgres

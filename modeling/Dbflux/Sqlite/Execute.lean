import Dbflux.Sql.LeadingKeyword
import Dbflux.Sql.Split

/-!
# SQLite requests

`execute` of the SQLite driver and the functions it sends a request to
(`dbflux_driver_sqlite/src/driver.rs`): an unbounded request is split by
the generic splitter, a row-limited one by asking `sqlite3_complete`.

SQLite itself is a parameter: its lexer (`Lexer`) and what preparing and
stepping a statement does to the database (`Engine`). `prepare` compiles the
first statement of a text; whether it ignores what stands behind it, as the
comments of the driver say, or refuses the text for it, as the locked `rusqlite`
does, is a parameter too (`Lexer.refusal`).
-/

namespace Dbflux.Sqlite

open Lib Sql

/-- SQLite's lexer: `sqlite3_complete`, the first statement of a text, and the
error of `prepare` for what stands behind that statement, if it has one. -/
structure Lexer where
  complete : Text → Bool
  first : Text → Text
  refusal : Text → Option Text

/-! ## Splitting a row-limited request -/

/-- The byte-order mark, U+FEFF. -/
def byteOrderMark : Char := '\ufeff'

/-- The loop of `sqlite_leading_sql` (lines 2056–2066). -/
def leadingLoop : ℕ → Text → Text
  | 0, text => text
  | fuel + 1, text =>
    match trimStart (stripLeadingComments text) with
    | [] => []
    | c :: rest => if c = byteOrderMark then leadingLoop fuel (trimStart rest) else c :: rest

/-- `sqlite_leading_sql`. -/
def leadingSql (sql : Text) : Text := leadingLoop (sql.length + 1) (trimStart sql)

/-- The loop of `sqlite_fragment_has_statement` (lines 2070–2079). -/
def fragmentLoop : ℕ → Text → Bool
  | 0, _ => false
  | fuel + 1, text =>
    match leadingSql text with
    | [] => false
    | c :: rest => if c = ';' then fragmentLoop fuel rest else true

/-- `sqlite_fragment_has_statement`. -/
def fragmentHasStatement (fragment : Text) : Bool := fragmentLoop (fragment.length + 1) fragment

/-- A fragment that is kept (lines 2130–2132 and 2136–2140). -/
def keepFragment (fragment : Text) : List Text :=
  if fragmentHasStatement fragment then [trim fragment] else []

section Split

variable (lexer : Lexer)

/-- The loop of `split_bounded_sql` (lines 2112–2142), with the text since the
previous statement. -/
def splitLoop (scanned : Text) : Text → List Text
  | [] => keepFragment scanned
  | c :: rest =>
    if c = ';' ∧ lexer.complete (scanned ++ [c]) then
      keepFragment (scanned ++ [c]) ++ splitLoop [] rest
    else splitLoop (scanned ++ [c]) rest

/-- `split_bounded_sql` (lines 2102–2143). -/
def splitBoundedSql (sql : Text) : Except Text (List Text) :=
  let sql := sql.dropWhile (· = byteOrderMark)
  if sql.contains '\x00' then
    .error ("SQLite: a row-limited request containing a NUL character is not supported; " ++
      "the request was rejected before execution").toList
  else .ok (splitLoop lexer [] sql)

end Split

/-! ## Running statements -/

/-- What stepping a statement to its end does: the rows it gives, an error
after them, the number of changed rows and the database afterwards. A
statement that is reset behind its first row leaves `afterFirstRow`. -/
structure Execution (D V : Type) where
  rows : List V
  error : Option Text
  affected : ℕ
  after : D
  afterFirstRow : D

/-- A database engine over the statements that give rows: `D` are databases,
`C` column descriptions, `V` rows. -/
structure Engine (returnsRows : Text → Bool) (D C V : Type) where
  prepareError : D → Text → Option Text
  columns : D → Text → List C
  run : D → Text → Execution D V
  columns_eq_nil : ∀ db statement, columns db statement = [] ↔ returnsRows statement = false
  rows_eq_nil : ∀ db statement, returnsRows statement = false → (run db statement).rows = []

/-- One result set of a `QueryResult`. -/
structure ResultSet (C V : Type) where
  columns : List C
  rows : List V
  affectedRows : Option ℕ
  rowsTruncated : Bool
  deriving DecidableEq, Repr

/-- What a request did: the statements it had SQLite prepare, in order, and its
result sets or the error of the last of them. -/
structure Outcome (D C V : Type) where
  log : List Text
  result : Except Text (List (ResultSet C V))
  db : D

section Run

variable (unicode : UnicodeTable) (lexer : Lexer) {returnsRows : Text → Bool} {D C V : Type}
  (engine : Engine returnsRows D C V)

/-- The keyword classification of an unbounded request (lines 2179–2182). -/
def startsWithQueryKeyword (sql : Text) : Bool :=
  let upper := (trim sql).flatMap unicode.toUppercase
  ["SELECT", "PRAGMA", "EXPLAIN"].any fun keyword => keyword.toList.isPrefixOf upper

/-- The row path (lines 2185–2267): rows past the limit are stepped and
dropped. -/
def queryRows (limit : Option ℕ) (db : D) (statement : Text) :
    Except Text (ResultSet C V) × D :=
  let execution := engine.run db statement
  match execution.error with
  | some error => (.error error, execution.after)
  | none =>
    let retained := limit.elim execution.rows execution.rows.take
    (.ok ⟨engine.columns db statement, retained, none,
      decide (retained.length < execution.rows.length)⟩, execution.after)

/-- `Statement::execute` (lines 2268–2287): a statement that gives a row is an
error. -/
def executeStatement (db : D) (statement : Text) : Except Text (ResultSet C V) × D :=
  let execution := engine.run db statement
  match execution.rows, execution.error with
  | _ :: _, _ => (.error "Execute returned results - did you mean to call query?".toList,
      execution.afterFirstRow)
  | [], some error => (.error error, execution.after)
  | [], none => (.ok ⟨[], [], some execution.affected, false⟩, execution.after)

/-- `execute_one_statement` (lines 2151–2288), without cancellation. -/
def executeOneStatement (limit : Option ℕ) (db : D) (sql : Text) :
    Except Text (ResultSet C V) × D :=
  let statement := lexer.first sql
  match (engine.prepareError db statement).or (lexer.refusal sql) with
  | some error => (.error error, db)
  | none =>
    let isQuery :=
      if limit.isSome then !(engine.columns db statement).isEmpty
      else startsWithQueryKeyword unicode sql
    if isQuery then queryRows engine limit db statement
    else executeStatement engine db statement

/-- The loops of `execute_sql` (lines 1861–1866) and `execute_bounded_batch`
(lines 2028–2052): statement after statement up to the first failure, under
one row budget if there is one. -/
def runStatements (limit : Option ℕ) (db : D) : List Text → Outcome D C V
  | [] => ⟨[], .ok [], db⟩
  | sql :: rest =>
    match executeOneStatement unicode lexer engine limit db sql with
    | (.error error, db) => ⟨[lexer.first sql], .error error, db⟩
    | (.ok result, db) =>
      let more := runStatements (limit.map (· - result.rows.length)) db rest
      ⟨lexer.first sql :: more.log, more.result.map (result :: ·), more.db⟩

/-- `execute_sql` (lines 1845–1874). -/
def executeSql (limit : Option ℕ) (db : D) (sql : Text) : Outcome D C V :=
  let statements := splitStatements unicode sql
  if limit.isSome ∨ statements.length ≤ 1 then
    runStatements unicode lexer engine limit db [sql]
  else runStatements unicode lexer engine none db statements

/-- `execute` (lines 912–952) for a request that may write. -/
def executeRequest (limit : Option ℕ) (db : D) (sql : Text) : Outcome D C V :=
  match limit with
  | none => executeSql unicode lexer engine none db sql
  | some limit =>
    match splitBoundedSql lexer sql with
    | .error error => ⟨[], .error error, db⟩
    | .ok statements =>
      if statements.length > 1 then
        runStatements unicode lexer engine (some limit) db statements
      else executeSql unicode lexer engine (some limit) db sql

end Run

end Dbflux.Sqlite

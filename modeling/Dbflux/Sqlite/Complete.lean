import Dbflux.Sqlite.Execute

/-!
# SQLite's lexer

`sqlite3_complete` as SQLite documents it: a text is complete when its last
token is a semicolon that ends a statement, where the body of a trigger runs
to `;END;`. It follows SQLite's quoting: a backslash is an ordinary character,
`[…]` is an identifier, and block comments do not nest.

This is behaviour of the library, written down to evaluate the driver's
functions on given texts.
-/

namespace Dbflux.Sqlite

open Lib

/-- The tokens `sqlite3_complete` tells apart. -/
inductive CompleteToken where
  | semi | space | other | explain | create | temp | trigger | end
  deriving DecidableEq, Repr

/-- Its states. -/
inductive CompleteState where
  | invalid | start | normal | explain | create | trigger | semi | end
  deriving DecidableEq, Repr

/-- Its transition table. -/
def CompleteState.next : CompleteState → CompleteToken → CompleteState
  | .trigger, .semi => .semi
  | .trigger, _ => .trigger
  | .semi, .semi => .semi
  | .semi, .space => .semi
  | .semi, .end => .end
  | .semi, _ => .trigger
  | .end, .semi => .start
  | .end, .space => .end
  | .end, _ => .trigger
  | _, .semi => .start
  | state, .space => state
  | .invalid, .explain | .start, .explain => .explain
  | .invalid, .create | .start, .create | .explain, .create => .create
  | .explain, .other => .explain
  | .create, .temp => .create
  | .create, .trigger => .trigger
  | _, _ => .normal

/-- An identifier character: a letter, a digit, `_`, `$` or anything outside
ASCII. -/
def isIdChar (c : Char) : Bool :=
  isAsciiAlphabetic c || isAsciiDigit c || c == '_' || c == '$' || 128 ≤ c.toNat

def isSpace (c : Char) : Bool := c ∈ [' ', '\r', '\t', '\n', '\x0c']

/-- The token of a word. -/
def wordToken (word : Text) : CompleteToken :=
  if isKeyword word "CREATE" then .create
  else if isKeyword word "TRIGGER" then .trigger
  else if isKeyword word "TEMP" || isKeyword word "TEMPORARY" then .temp
  else if isKeyword word "END" then .end
  else if isKeyword word "EXPLAIN" then .explain
  else .other

/-- The next token of a text that starts with `c`, and the text behind it.
`none` for a comment or quotation that does not end. -/
def nextToken (c : Char) (rest : Text) : Option (CompleteToken × Text) :=
  if c = ';' then some (.semi, rest)
  else if isSpace c then some (.space, rest)
  else if ['/', '*'].isPrefixOf (c :: rest) then
    (afterFirst ['*', '/'] (rest.drop 1)).map (.space, ·)
  else if ['-', '-'].isPrefixOf (c :: rest) then
    (afterFirst ['\n'] rest).map (.space, ·)
  else if c = '[' then (afterFirst [']'] rest).map (.other, ·)
  else if c ∈ ['\x60', '"', '\''] then (afterFirst [c] rest).map (.other, ·)
  else if isIdChar c then
    some (wordToken (c :: rest.takeWhile isIdChar), rest.dropWhile isIdChar)
  else some (.other, rest)

def completeLoop : ℕ → CompleteState → Text → Bool
  | _, state, [] => decide (state = .start)
  | 0, _, _ :: _ => false
  | fuel + 1, state, c :: rest =>
    match nextToken c rest with
    | some (token, rest) => completeLoop fuel (state.next token) rest
    | none =>
      -- A line comment may be cut off behind a complete statement.
      ['-', '-'].isPrefixOf (c :: rest) && decide (state = .start)

/-- `sqlite3_complete`. -/
def complete (sql : Text) : Bool := completeLoop sql.length .invalid sql

/-- The text up to the semicolon that completes it, without that semicolon, and
the text behind it. -/
def splitAtEnd (scanned : Text) : Text → Text × Text
  | [] => (scanned.rdropWhile isSpace, [])
  | c :: rest =>
    if c = ';' ∧ complete (scanned ++ [c]) then (scanned.rdropWhile isSpace, rest)
    else splitAtEnd (scanned ++ [c]) rest

/-- The text behind leading space, comments and semicolons. -/
def skipTrivia : ℕ → Text → Text
  | 0, text => text
  | _, [] => []
  | fuel + 1, c :: rest =>
    match nextToken c rest with
    | some (.semi, rest) | some (.space, rest) => skipTrivia fuel rest
    | some _ => c :: rest
    -- a comment may run to the end of the text
    | none => if c = '-' ∨ c = '/' then [] else c :: rest

/-- A text as `prepare` splits it: its first statement and what stands behind. -/
def preparedParts (sql : Text) : Text × Text := splitAtEnd [] (skipTrivia sql.length sql)

/-- SQLite's lexer, with a `prepare` that refuses a text with a second statement. -/
def sqlite : Lexer where
  complete := complete
  first := fun sql => (preparedParts sql).1
  refusal := fun sql =>
    if skipTrivia sql.length (preparedParts sql).2 = [] then none
    else some "Multiple statements provided".toList

end Dbflux.Sqlite

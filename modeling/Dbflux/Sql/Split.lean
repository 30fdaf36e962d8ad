import Dbflux.Lib.Text

/-!
# The statement splitter

`split_sql_statements` and `sql_statement_ranges`
(`dbflux_core/src/driver/capabilities.rs`, lines 1336–1530): the
segments of a text between the semicolons that stand outside comments, string
literals, quoted identifiers and dollar-quoted bodies. One set of lexical rules
serves every database: block comments nest, a backslash escapes in a string,
and `$tag$` opens a body.

A range is represented by the text it covers, and a position by the rest of
the text from there on.
-/

namespace Dbflux.Sql

open Lib List

/-- The inner loop of a block comment (lines 1384–1394), at nesting `depth`. -/
def skipBlock : ℕ → Text → Text
  | 0, text => text
  | depth + 1, '/' :: '*' :: rest => skipBlock (depth + 2) rest
  | depth + 1, '*' :: '/' :: rest => skipBlock depth rest
  | depth + 1, _ :: rest => skipBlock (depth + 1) rest
  | _ + 1, [] => []

/-- The inner loop of a string literal (lines 1402–1421). -/
def skipString : Text → Text
  | '\\' :: _ :: rest => skipString rest
  | '\'' :: '\'' :: rest => skipString rest
  | '\'' :: rest => rest
  | _ :: rest => skipString rest
  | [] => []

/-- The inner loop of a quoted identifier (lines 1430–1441). -/
def skipIdentifier (quote : Char) : Text → Text
  | [] => []
  | c :: rest =>
    if c = quote then
      match rest with
      | [] => []
      | d :: rest' => if d = quote then skipIdentifier quote rest' else rest
    else skipIdentifier quote rest

section

variable (unicode : UnicodeTable)

/-- `dollar_tag_end` (lines 1489–1509) behind the first `$`: the tag up to the
next `$`. -/
def dollarTag (rest : Text) : Option Text :=
  let tag := rest.takeWhile (· ≠ '$')
  let valid (c : Char) : Bool := c == '_' || unicode.isAlphabetic c
  if rest.contains '$' && tag.head?.all valid && tag.tail.all (fun c => valid c || isAsciiDigit c)
  then some tag
  else none

/-- One round of the loop of `sql_statement_ranges` at a character that is not
a semicolon: the rest of the text behind the comment, literal or character
it starts with. -/
def skipChunk (c : Char) (rest : Text) : Text :=
  if ['-', '-'].isPrefixOf (c :: rest) then (c :: rest).dropWhile (· ≠ '\n')
  else if ['/', '*'].isPrefixOf (c :: rest) then skipBlock 1 (rest.drop 1)
  else if c = '\'' then skipString rest
  else if c = '"' ∨ c = '\x60' then skipIdentifier c rest
  else if c = '$' then
    match dollarTag unicode rest with
    | some tag =>
      -- An unclosed body runs to the end of the text.
      (afterFirst ('$' :: tag ++ ['$']) (rest.drop (tag.length + 1))).getD []
    | none => rest
  else rest

/-- The loop of `sql_statement_ranges` (lines 1365–1474), with the part of the
current segment that is already scanned. -/
def segmentsLoop : ℕ → Text → Text → List Text
  | _, scanned, [] => [scanned]
  | 0, scanned, text => [scanned ++ text]
  | fuel + 1, scanned, c :: rest =>
    if c = ';' then scanned :: segmentsLoop fuel [] rest
    else
      let next := skipChunk unicode c rest
      segmentsLoop fuel (scanned ++ (c :: rest).take ((c :: rest).length - next.length)) next

/-- `sql_statement_ranges`: the segments, untrimmed, empty ones kept. -/
def segments (text : Text) : List Text := segmentsLoop unicode text.length [] text

/-- `split_sql_statements` (lines 1336–1344). -/
def splitStatements (text : Text) : List Text :=
  ((segments unicode text).map trim).filter fun statement => !statement.isEmpty

end

end Dbflux.Sql

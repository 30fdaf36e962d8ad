import Dbflux.Lib.Json
import Dbflux.Lib.Literal
import Dbflux.Mongo.Bson

/-!
# Literals of imported values

What an import reads from a file (`dbflux_transfer/src/value_codec.rs`, lines 17–145)
and what `build_bulk_insert` (`dbflux_core/src/sql/query_builder.rs`, lines 130–165)
writes for it in the default dialect (`sql/dialect.rs`, lines 280–323) and in those of
DuckDB (`dialect.rs`, lines 23–84), ClickHouse (`dialect.rs`, lines 21–59) and SQLite
(`driver.rs`, lines 2345–2384). Floats, dates and `serde_json` are parameters
(`Formats`), and so is what engines differ in (`Dialect.Reads`).

Results:
* `written_value`: a value without decimals is written as a literal in every dialect.
* `valueFromJson_cases`: only a string at the top can become a decimal.
* `imported_rows_are_data`: when the rows of an import are one literal for each value.
* `dropping_number_is_a_statement`: a field of a numeric column that ends its row.
-/

namespace Dbflux.Transfer

open Dbflux.Lib Dbflux.Lib.ValueTree Dbflux.Lib.LiteralRules Dbflux.Mongo List
open Option (map_eq_some_iff bind_eq_some_iff)

/-- A character that neither ends nor escapes in a string. -/
def isPlainChar (c : Char) : Bool := c != quoteChar && c != '\\' && c != Char.ofNat 0

/-- What the libraries read and write: `f64`, `chrono` and `serde_json`. -/
structure Formats (F : Type) where
  isFinite : F → Bool
  isNan : F → Bool
  isSignPositive : F → Bool
  displayFloat : F → Text
  parseFloat : Text → Option F
  /-- `Number::as_i64` and `Number::as_f64`. -/
  asI64 : Text → Option ℤ
  asF64 : Text → Option F
  parseRfc3339 : Text → Option ℤ
  parseDate : Text → Option ℤ
  parseTime : Text → Option ℤ
  /-- `%Y-%m-%d %H:%M:%S%.f`, `to_rfc3339`, `%Y-%m-%d` and `%H:%M:%S%.f`. -/
  formatDateTime : ℤ → Text
  toRfc3339 : ℤ → Text
  formatDate : ℤ → Text
  formatTime : ℤ → Text
  /-- `serde_json::to_string` of an array or a document. -/
  toJson : ValueTree (Scalar F) → Text
  isNumber_displayFloat : ∀ f, isFinite f →
    ∃ digits, IsNumber digits ∧ (displayFloat f = digits ∨ displayFloat f = '-' :: digits)
  plain_formatDateTime : ∀ n, (formatDateTime n).all isPlainChar
  plain_toRfc3339 : ∀ n, (toRfc3339 n).all isPlainChar
  plain_formatDate : ∀ n, (formatDate n).all isPlainChar
  plain_formatTime : ∀ n, (formatTime n).all isPlainChar
  nul_toJson : ∀ value, Char.ofNat 0 ∉ toJson value

section Decode

variable {F : Type} (fmt : Formats F)

/-- `str::contains` on the type name in lower case. -/
def typeMentions (typeName : Text) (word : String) : Bool :=
  (afterFirst word.toList typeName).isSome

/-- The types whose texts become decimals (lines 108–111). -/
def isDecimalType (typeLower : Text) : Bool :=
  typeMentions typeLower "numeric" || typeMentions typeLower "decimal" ||
    typeMentions typeLower "money"

/-- `value_from_text` behind the test for decimals (lines 115–144). -/
def valueFromPlainText (text typeLower : Text) : ValueTree (Scalar F) :=
  let integer :=
    if (typeMentions typeLower "int" || typeMentions typeLower "serial") &&
        !typeMentions typeLower "point" then (parseI64 text).map Scalar.int
    else none
  let float :=
    if typeMentions typeLower "float" || typeMentions typeLower "double" ||
        typeMentions typeLower "real" then (fmt.parseFloat text).map Scalar.float
    else none
  let instant :=
    if typeMentions typeLower "timestamp" || typeMentions typeLower "datetime" then
      (fmt.parseRfc3339 text).map Scalar.dateTime
    else if typeLower = "date".toList then (fmt.parseDate text).map Scalar.date
    else if typeMentions typeLower "time" then (fmt.parseTime text).map Scalar.time
    else none
  leaf (((integer.or float).or instant).getD (.text text))

/-- `value_from_text` (lines 97–145). -/
def valueFromText (text : Text) (typeName : Option Text) : ValueTree (Scalar F) :=
  let typeLower := (typeName.getD []).map Char.toLower
  if typeMentions typeLower "bool" ∧ text = "true".toList then leaf (.bool true)
  else if typeMentions typeLower "bool" ∧ text = "false".toList then leaf (.bool false)
  else if isDecimalType typeLower then leaf (.decimal text)
  else valueFromPlainText fmt text typeLower

/-- `value_from_csv_field` (lines 17–23). -/
def valueFromCsvField (field : Text) (typeName : Option Text) : ValueTree (Scalar F) :=
  if field = [] then leaf .null else valueFromText fmt field typeName

/-- `u8::from_str_radix` of two characters: a sign may stand in front. -/
def hexPair (a b : Char) : Option ℕ :=
  match hexValue b with
  | none => none
  | some low => if a = '+' then some low else (hexValue a).map fun high => 16 * high + low

/-- `decode_hex` (lines 83–88): `none` where a slice of two bytes would cut a character,
which panics, and `some none` for a text that is not hexadecimal. -/
def decodeHex : Text → Option (Option (List UInt8))
  | [] => some (some [])
  | [a] =>
    if a.utf8Size ≤ 2 then some ((hexValue a).map fun n => [UInt8.ofNat n]) else none
  | a :: b :: rest =>
    if a.utf8Size = 2 then some none
    else if a.utf8Size = 1 ∧ b.utf8Size = 1 then
      match hexPair a b with
      | none => some none
      | some byte => (decodeHex rest).map (Option.map (UInt8.ofNat byte :: ·))
    else none

/-- The member `$binary.hex` (lines 63–66). -/
def binaryHex (members : List (Text × Json)) : Option Text :=
  match members.lookup "$binary".toList with
  | some (.object inner) => (inner.lookup "hex".toList).bind Json.string?
  | _ => none

/-- The objects that stand for a leaf (lines 52–74); `none` is a panic, `some none` any
other object. -/
def decodeExtended (members : List (Text × Json)) : Option (Option (Scalar F)) :=
  match (members.lookup "$oid".toList).bind Json.string? with
  | some oid => some (some (.objectId oid))
  | none =>
    match ((members.lookup "$date".toList).bind Json.string?).bind fmt.parseRfc3339 with
    | some instant => some (some (.dateTime instant))
    | none =>
      let unsupported :=
        ((members.lookup "$unsupported".toList).bind Json.string?).map Scalar.unsupported
      match binaryHex members with
      | none => some unsupported
      | some hex => (decodeHex hex).map fun bytes => (bytes.map Scalar.bytes).or unsupported

mutual

/-- `value_from_json` (lines 28–50) and `decode_json_object` (lines 52–81); `none` is a
panic. Only the outermost string is read by the type of its column. -/
def valueFromJson (typeName : Option Text) : Json → Option (ValueTree (Scalar F))
  | .null => some (leaf .null)
  | .bool b => some (leaf (.bool b))
  | .number text =>
    match fmt.asI64 text, fmt.asF64 text with
    | some i, _ => some (leaf (.int i))
    | none, some f => some (leaf (.float f))
    | none, none => some (leaf (.text text))
  | .string text => some (valueFromText fmt text typeName)
  | .array items => (itemsFromJson items).map array
  | .object members =>
    match decodeExtended fmt members with
    | none => none
    | some (some scalar) => some (leaf scalar)
    | some none => (membersFromJson members).map document

def itemsFromJson : List Json → Option (List (ValueTree (Scalar F)))
  | [] => some []
  | item :: rest => do return (← valueFromJson none item) :: (← itemsFromJson rest)

def membersFromJson : List (Text × Json) → Option (List (Text × ValueTree (Scalar F)))
  | [] => some []
  | (key, value) :: rest => do
    let decoded ← valueFromJson none value
    return (key, decoded) :: (← membersFromJson rest)

end

end Decode

/-! ## Writers -/

/-- The dialects whose literals an import writes. -/
inductive Dialect
  | default
  | duckdb
  | clickhouse
  | sqlite
deriving DecidableEq

/-- The engine of a dialect may read a list of values by these rules: in plain strings
a backslash escapes in ClickHouse only. -/
def Dialect.Reads (d : Dialect) (r : LiteralRules) : Prop :=
  r.backslashEscapes = decide (d = .clickhouse)

/-- Rules for an engine that takes no other numbers and literals. DuckDB and SQLite take
the text as a C string; a `#` opens a comment in ClickHouse. -/
def Dialect.rules (d : Dialect) : LiteralRules where
  backslashEscapes := d = .clickhouse
  escapeStrings := d = .duckdb
  dollarStrings := d = .duckdb ∨ d = .clickhouse
  hashComments := d = .clickhouse
  nulEnds := d = .duckdb ∨ d = .sqlite
  IsNumeral := IsNumber
  Further := fun _ => False
  isNumeral_of_isNumber := fun _ h => h
  enclosed_of_further := nofun

/-- `escape_string`. -/
def Dialect.escapeString : Dialect → Text → Text
  | .clickhouse => backslashed
  | _ => doubled

/-- A text between quotes, escaped. -/
def Dialect.quote (d : Dialect) (text : Text) : Text := quoted (d.escapeString text)

/-- `{:02x}` and `{:02X}`. -/
def hexByte (digits : Text) (byte : UInt8) : Text :=
  [digits.getD (byte.toNat / 16) '0', digits.getD (byte.toNat % 16) '0']

def lowerHex (bytes : List UInt8) : Text := bytes.flatMap (hexByte "0123456789abcdef".toList)

/-- `\\x{byte:02X}` for each byte. -/
def escapedHex (bytes : List UInt8) : Text :=
  bytes.flatMap fun byte => '\\' :: 'x' :: hexByte "0123456789ABCDEF".toList byte

section Write

variable {F : Type} (fmt : Formats F)

/-- The leaves of `DefaultSqlDialect::value_to_literal`. -/
def defaultScalar : Scalar F → Text
  | .null | .unsupported _ => "NULL".toList
  | .bool b => (if b then "TRUE" else "FALSE").toList
  | .int i => displayInt i
  | .float f =>
    if fmt.isNan f then quoted "NaN".toList
    else if fmt.isFinite f then fmt.displayFloat f
    else quoted (if fmt.isSignPositive f then "Infinity" else "-Infinity").toList
  | .text s | .json s | .objectId s => Dialect.default.quote s
  | .bytes bytes => 'X' :: quoted (lowerHex bytes)
  | .decimal s => s
  | .dateTime n => quoted (fmt.formatDateTime n)
  | .date n => quoted (fmt.formatDate n)
  | .time n => quoted (fmt.formatTime n)

/-- The leaves of `DuckDbDialect::value_to_literal`. -/
def duckdbScalar : Scalar F → Text
  | .null | .unsupported _ => "NULL".toList
  | .bool b => (if b then "TRUE" else "FALSE").toList
  | .int i => displayInt i
  | .float f =>
    if fmt.isFinite f then fmt.displayFloat f
    else quoted (if fmt.isNan f then "nan" else if fmt.isSignPositive f then "inf" else "-inf").toList
      ++ "::DOUBLE".toList
  | .text s | .objectId s => Dialect.duckdb.quote s
  | .json s => Dialect.duckdb.quote s ++ "::JSON".toList
  | .bytes bytes => quoted (escapedHex bytes) ++ "::BLOB".toList
  | .decimal s => s
  | .dateTime n => "TIMESTAMP ".toList ++ quoted (fmt.formatDateTime n)
  | .date n => "DATE ".toList ++ quoted (fmt.formatDate n)
  | .time n => "TIME ".toList ++ quoted (fmt.formatTime n)

/-- The leaves of `ClickHouseDialect::value_to_literal`. -/
def clickhouseScalar : Scalar F → Text
  | .null | .unsupported _ => "NULL".toList
  | .bool b => (if b then "true" else "false").toList
  | .int i => displayInt i
  | .float f =>
    if fmt.isFinite f then fmt.displayFloat f
    else (if fmt.isNan f then "nan" else if fmt.isSignPositive f then "inf" else "-inf").toList
  | .text s | .json s | .objectId s => Dialect.clickhouse.quote s
  | .bytes bytes => "unhex(".toList ++ quoted (lowerHex bytes) ++ [')']
  | .decimal s => s
  | .dateTime n => quoted (fmt.toRfc3339 n)
  | .date n => quoted (fmt.formatDate n)
  | .time n => quoted (fmt.formatTime n)

/-- The leaves of `value_to_sqlite_literal`. A decimal is a string here. -/
def sqliteScalar : Scalar F → Text
  | .null | .unsupported _ => "NULL".toList
  | .bool b => (if b then "1" else "0").toList
  | .int i => displayInt i
  | .float f => if fmt.isFinite f then fmt.displayFloat f else "NULL".toList
  | .text s | .json s | .objectId s | .decimal s => Dialect.sqlite.quote s
  | .bytes bytes => 'X' :: quoted (lowerHex bytes)
  | .dateTime n => quoted (fmt.toRfc3339 n)
  | .date n => quoted (fmt.formatDate n)
  | .time n => quoted (fmt.formatTime n)

def Dialect.scalarLiteral : Dialect → Scalar F → Text
  | .default => defaultScalar fmt
  | .duckdb => duckdbScalar fmt
  | .clickhouse => clickhouseScalar fmt
  | .sqlite => sqliteScalar fmt

def separator : Text := ", ".toList

/-- The arms for `Value::Array`, from the literals of the items and their JSON. -/
def Dialect.arrayLiteral (items : List Text) (json : Text) : Dialect → Text
  | .default => "ARRAY".toList ++ '[' :: separator.intercalate items ++ [']']
  | .duckdb | .clickhouse => '[' :: separator.intercalate items ++ [']']
  | .sqlite => Dialect.sqlite.quote json

/-- The arms for `Value::Document`, from the texts of the fields and their JSON. -/
def Dialect.documentLiteral (fields : List Text) (json : Text) : Dialect → Text
  | .duckdb => '\x7b' :: separator.intercalate fields ++ ['\x7d']
  | .default => Dialect.default.quote json
  | .clickhouse => Dialect.clickhouse.quote json
  | .sqlite => Dialect.sqlite.quote json

mutual

/-- `value_to_literal`. -/
def Dialect.valueToLiteral (d : Dialect) : ValueTree (Scalar F) → Text
  | leaf scalar => d.scalarLiteral fmt scalar
  | array items => d.arrayLiteral (Dialect.itemLiterals d items) (fmt.toJson (array items))
  | document fields =>
    d.documentLiteral (Dialect.fieldLiterals d fields) (fmt.toJson (document fields))

def Dialect.itemLiterals (d : Dialect) : List (ValueTree (Scalar F)) → List Text
  | [] => []
  | item :: rest => Dialect.valueToLiteral d item :: Dialect.itemLiterals d rest

def Dialect.fieldLiterals (d : Dialect) : List (Text × ValueTree (Scalar F)) → List Text
  | [] => []
  | (key, value) :: rest =>
    (d.quote key ++ ": ".toList ++ Dialect.valueToLiteral d value) :: Dialect.fieldLiterals d rest

end

/-- `has_time_zone` (`dbflux_driver_duckdb/src/dialect.rs`, lines 165–168). -/
def hasTimeZone (columnType : Text) : Bool :=
  let upper := asciiUppercase columnType
  typeMentions upper "TIME ZONE" || "TIMESTAMPTZ".toList.isPrefixOf upper

/-- `value_to_literal_typed`, which only DuckDB overrides (lines 73–80). -/
def Dialect.valueToLiteralTyped (d : Dialect) (value : ValueTree (Scalar F))
    (columnType : Option Text) : Text :=
  match d, value, columnType with
  | .duckdb, leaf (.dateTime n), some type =>
    if hasTimeZone type then quoted (fmt.toRfc3339 n) ++ "::TIMESTAMPTZ".toList
    else d.valueToLiteral fmt value
  | _, _, _ => d.valueToLiteral fmt value

/-- The literals of one row in `build_bulk_insert` (lines 148–155). -/
def rowLiterals (d : Dialect) (columnTypes : List (Option Text)) (row : List (ValueTree (Scalar F))) :
    List Text :=
  row.mapIdx fun index value => d.valueToLiteralTyped fmt value (columnTypes[index]?.join)

/-- The tuple of one row (lines 147–158). -/
def rowTuple (d : Dialect) (columnTypes : List (Option Text)) (row : List (ValueTree (Scalar F))) :
    Text :=
  '(' :: separator.intercalate (rowLiterals fmt d columnTypes row) ++ [')']

/-- The statement up to the rows, from the quoted table and columns. -/
def insertHead (tableRef columns : Text) : Text :=
  "INSERT INTO ".toList ++ tableRef ++ " (".toList ++ columns ++ ") VALUES".toList

/-- `build_bulk_insert` (lines 130–165) behind the quoted table and columns. -/
def buildBulkInsert (d : Dialect) (tableRef columns : Text) (columnTypes : List (Option Text))
    (rows : List (List (ValueTree (Scalar F)))) : Option Text :=
  if rows = [] then none
  else some (insertHead tableRef columns ++
    ' ' :: separator.intercalate (rows.map (rowTuple fmt d columnTypes)))

/-- The text of a leaf. -/
def scalarText : Scalar F → Text
  | .text s | .json s | .objectId s | .decimal s => s
  | _ => []

mutual

/-- The texts of a value that a dialect writes as they are or escaped; what is written
as JSON is not among them. -/
def Dialect.texts (d : Dialect) : ValueTree (Scalar F) → List Text
  | leaf scalar => [scalarText scalar]
  | array items => if d = .sqlite then [] else Dialect.itemTexts d items
  | document fields => if d = .duckdb then Dialect.fieldTexts d fields else []

def Dialect.itemTexts (d : Dialect) : List (ValueTree (Scalar F)) → List Text
  | [] => []
  | item :: rest => Dialect.texts d item ++ Dialect.itemTexts d rest

def Dialect.fieldTexts (d : Dialect) : List (Text × ValueTree (Scalar F)) → List Text
  | [] => []
  | (key, value) :: rest => key :: Dialect.texts d value ++ Dialect.fieldTexts d rest

end

end Write

/-! ## What is written is a literal -/

/-- A text that is read as a literal whatever stands behind it, if that stops. -/
def Written (r : LiteralRules) (text : Text) : Prop := ∃ ts, Yields r text ts ∧ IsLiteral r ts

variable {rest : Text}

theorem stops_cons {c : Char} (hc : isWordChar c = false ∧ isNumberChar c = false ∧ c ≠ quoteChar) :
    Stops (c :: rest) := by
  intro d hd
  cases hd
  exact hc

variable {r : LiteralRules} {body : Text}

theorem stringEnd_plainChars (hrest : Stops rest) (hbody : body.all isPlainChar) :
    stringEnd r.backslashEscapes (body ++ quoteChar :: rest) = some rest := by
  induction body with
  | nil => exact stringEnd_close hrest.head?_ne_quote
  | cons c body ih =>
    simp only [all_cons, Bool.and_eq_true, isPlainChar, bne_iff_ne, ne_eq] at hbody
    rw [cons_append, stringEnd_plain (fun h => hbody.1.1.2 h.1) hbody.1.1.1]
    exact ih (by simpa [isPlainChar] using hbody.2)

theorem yields_plain (r : LiteralRules) (hbody : body.all isPlainChar) :
    Yields r (quoted body) [.string] :=
  yields_of_stringEnd fun _ hrest => stringEnd_plainChars hrest hbody

variable {d : Dialect}

theorem yields_quote (hr : d.Reads r) (text : Text) : Yields r (d.quote text) [.string] := by
  cases d with
  | default | duckdb | sqlite => exact yields_doubled hr text
  | clickhouse => exact yields_backslashed hr text

theorem written_quote (hr : d.Reads r) (text : Text) : Written r (d.quote text) :=
  ⟨_, yields_quote hr text, .string⟩

theorem written_plain (r : LiteralRules) (hbody : body.all isPlainChar) :
    Written r (quoted body) := ⟨_, yields_plain r hbody, .string⟩

variable {digits : Text}

theorem written_number (h : IsNumber digits) : Written r digits := by
  obtain ⟨c, rest, rfl, hc, hrest, -⟩ := id h
  exact ⟨_, yields_number hc hrest, .number _ (r.isNumeral_of_isNumber _ h)⟩

/-- A minus in front of a number opens no comment. -/
theorem written_negative (h : IsNumber digits) : Written r ('-' :: digits) := by
  obtain ⟨c, rest, rfl, hc, hrest, -⟩ := id h
  have hminus : c ≠ '-' := by
    rintro rfl
    exact absurd hc (by decide)
  refine ⟨[.symbol '-', .number (c :: rest)], ?_,
    .signed '-' _ (.inl rfl) rfl (.number _ (r.isNumeral_of_isNumber _ h))⟩
  intro behind us hbehind hus
  refine .token (by decide) ?_ (yields_number hc hrest behind us hbehind hus)
  change nextToken r ('-' :: c :: (rest ++ behind)) = some (.symbol '-', c :: (rest ++ behind))
  rw [nextToken, if_neg (by decide),
    if_neg (by simp [startsNumber, show isAsciiDigit '-' = false by decide]), if_neg (by decide),
    if_neg (by simp), if_neg (by simp [hminus])]

theorem isNumber_decimal (n : ℕ) : IsNumber (decimal n) := by
  cases h : decimal n with
  | nil => exact absurd h (decimal_ne_nil n)
  | cons c rest =>
    have hdigit : ∀ d ∈ c :: rest, isAsciiDigit d := by
      intro d hd
      rw [← h] at hd
      exact isAsciiDigit_of_mem_decimal hd
    refine ⟨c, rest, rfl, hdigit c (mem_cons_self ..), ?_, ?_⟩
    · intro d hd
      simp [isNumberChar, hdigit d (mem_cons_of_mem _ hd)]
    · have hdot : '.' ∉ c :: rest := fun hmem => absurd (hdigit '.' hmem) (by decide)
      rw [count_eq_zero_of_not_mem hdot]
      exact Nat.zero_le _

theorem written_displayInt (r : LiteralRules) (i : ℤ) : Written r (displayInt i) := by
  unfold displayInt
  split
  · exact written_negative (isNumber_decimal _)
  · exact written_number (isNumber_decimal _)

theorem written_displayFloat {F : Type} (fmt : Formats F) (r : LiteralRules) {f : F}
    (hf : fmt.isFinite f) : Written r (fmt.displayFloat f) := by
  obtain ⟨digits, hdigits, h | h⟩ := fmt.isNumber_displayFloat f hf
  · rw [h]
    exact written_number hdigits
  · rw [h]
    exact written_negative hdigits

variable {word : Text}

/-- A word that is a literal. -/
theorem written_constant (r : LiteralRules) (hword : isWord word)
    (hconstant : isOneOf constants word) : Written r word :=
  ⟨[.word word], fun _ _ hrest hus => lexes_word hword (fun d hd => (hrest d hd).1) hus,
    .constant word hconstant⟩

variable {text : Text}

/-- A cast behind a literal. -/
theorem Written.cast (h : Written r text) (hword : isWord word) :
    Written r (text ++ ':' :: ':' :: word) := by
  obtain ⟨ts, hyields, hliteral⟩ := h
  refine ⟨ts ++ [.symbol ':', .symbol ':', .word word], ?_, .cast ts _ hliteral⟩
  intro rest us hrest hus
  have hcolons := lexes_symbol (c := ':') (by simp) (lexes_symbol (c := ':') (by simp)
    (lexes_word (r := r) hword (fun d hd => (hrest d hd).1) hus))
  have := hyields _ _ (stops_cons (by decide)) hcolons
  simpa using this

/-- A string behind the word that types it, with a space between them or without. -/
theorem written_typed {space : Text} (hbody : body.all isPlainChar)
    (hspace : space = [' '] ∨ space = []) (hword : isWord word) (htype : isOneOf stringTypes word) :
    Written r (word ++ (space ++ quoted body)) := by
  refine ⟨[.word word, .string], fun rest us hrest hus => ?_, .typed _ htype⟩
  have hstring : Lexes r (quoted body ++ rest) (.string :: us) :=
    yields_plain r hbody rest us hrest hus
  have htail : Lexes r (space ++ (quoted body ++ rest)) (.string :: us) := by
    obtain rfl | rfl := hspace
    · exact .space (by decide) hstring
    · exact hstring
  have hstop : ∀ d, (space ++ (quoted body ++ rest)).head? = some d → isWordChar d = false := by
    intro d hd
    obtain rfl | rfl := hspace <;> (cases hd; decide)
  simpa using lexes_word (r := r) hword hstop htail

/-- `unhex` of a string. -/
theorem written_unhex (r : LiteralRules) (hbody : body.all isPlainChar) :
    Written r ("unhex".toList ++ '(' :: quoted body ++ [')']) := by
  refine ⟨[.word "unhex".toList, .symbol '(', .string, .symbol ')'], fun rest us hrest hus => ?_,
    .call _ (by decide)⟩
  have hclose : Lexes r (')' :: rest) (.symbol ')' :: us) := lexes_symbol (by simp) hus
  have hstring := yields_plain r hbody _ _ (stops_cons (by decide)) hclose
  have hopen : Lexes r ('(' :: (quoted body ++ ')' :: rest))
      (.symbol '(' :: .string :: .symbol ')' :: us) := lexes_symbol (by simp) hstring
  have hword : isWord "unhex".toList := by decide
  simpa using lexes_word hword (fun d hd => by cases hd; decide) hopen

/-! ## Collections -/

/-- Items behind one another, in front of a closing bracket. -/
theorem lexes_items {α : Type} {items : List α} {text : α → Text} {tokens : α → List Token}
    {P : Text → Prop} (hitems : ∀ item ∈ items, ∀ rest us, P rest → Lexes r rest us →
      Lexes r (text item ++ rest) (tokens item ++ us))
    (hcomma : ∀ behind, P (',' :: behind)) {us : List Token} (hrest : P rest)
    (hus : Lexes r rest us) :
    Lexes r (separator.intercalate (items.map text) ++ rest)
      ([.symbol ','].intercalate (items.map tokens) ++ us) := by
  induction items with
  | nil => exact hus
  | cons item items ih =>
    obtain ⟨hitem, hitems⟩ := forall_mem_cons.mp hitems
    cases items with
    | nil =>
      simp only [map_cons, map_nil, intercalate_singleton]
      exact hitem rest us hrest hus
    | cons next items =>
      have hbehind := lexes_symbol (r := r) (c := ',') (by simp)
        (.space (r := r) (c := ' ') (by decide) (ih hitems))
      have := hitem _ _ (hcomma _) hbehind
      simpa [intercalate_cons_cons, separator] using this

variable {texts : List Text}

/-- Items between square brackets, behind `ARRAY` or not. -/
theorem written_array (h : ∀ text ∈ texts, Written r text) {label : Text}
    (hlabel : label = [] ∨ label = "ARRAY".toList) :
    Written r (label ++ '[' :: separator.intercalate texts ++ [']']) := by
  choose! tokens hyields hliteral using h
  have hliterals := forall_mem_map.mpr hliteral
  have hbody : ∀ rest us, Lexes r rest us →
      Lexes r ('[' :: (separator.intercalate (texts.map id) ++ ']' :: rest))
        (.symbol '[' :: ([.symbol ','].intercalate (texts.map tokens) ++ .symbol ']' :: us)) := by
    intro rest us hus
    have hclose : Lexes r (']' :: rest) (.symbol ']' :: us) := lexes_symbol (by simp) hus
    exact lexes_symbol (by simp) (lexes_items hyields (fun _ => stops_cons (by decide))
      (stops_cons (by decide)) hclose)
  obtain rfl | rfl := hlabel
  · refine ⟨_, fun rest us _ hus => ?_, .array [] _ (.inl rfl) hliterals⟩
    simpa using hbody rest us hus
  · refine ⟨_, fun rest us _ hus => ?_, .array [.word "ARRAY".toList] _ (.inr rfl) hliterals⟩
    have hword : isWord "ARRAY".toList := by decide
    simpa using lexes_word hword (fun d hd => by cases hd; decide) (hbody rest us hus)

/-- Fields between braces: a quoted key, a colon and the value. -/
theorem written_struct (hr : d.Reads r) {fields : List (Text × Text)}
    (h : ∀ field ∈ fields, Written r field.2) :
    Written r ('\x7b' :: separator.intercalate
      (fields.map fun field => d.quote field.1 ++ ": ".toList ++ field.2) ++ ['\x7d']) := by
  choose! tokens hyields hliteral using h
  refine ⟨_, fun rest us _ hus => ?_, .struct (fields.map tokens) (forall_mem_map.mpr hliteral)⟩
  have hclose : Lexes r ('\x7d' :: rest) (.symbol '\x7d' :: us) := lexes_symbol (by simp) hus
  have hfield : ∀ field ∈ fields, Yields r (d.quote field.1 ++ ": ".toList ++ field.2)
      (.string :: .symbol ':' :: tokens field) := by
    intro field hfield rest us hrest hus
    have hcolon : Lexes r (':' :: ' ' :: (field.2 ++ rest)) (.symbol ':' :: (tokens field ++ us)) :=
      lexes_symbol (by simp) (.space (by decide) (hyields field hfield rest us hrest hus))
    have := yields_quote hr field.1 _ _ (stops_cons (by decide)) hcolon
    simpa using this
  have hopen : Lexes r ('\x7b' :: _) (.symbol '\x7b' :: _) := lexes_symbol (by simp)
    (lexes_items hfield (fun _ => stops_cons (by decide)) (stops_cons (by decide)) hclose)
  simpa [Function.comp_def] using hopen

/-! ## Values -/

theorem doubled_eq_self (h : quoteChar ∉ text) : doubled text = text := by
  induction text with
  | nil => rfl
  | cons c text ih =>
    rw [mem_cons, not_or] at h
    have hstep : doubled (c :: text) = c :: doubled text := by
      simp [doubled, Ne.symm h.1]
    rw [hstep, ih h.2]

theorem plain_hexByte (hdigits : ∀ n < 16, isPlainChar (digits.getD n '0')) (byte : UInt8) :
    (hexByte digits byte).all isPlainChar := by
  have hbyte := byte.toNat_lt
  simp only [hexByte, all_cons, all_nil, Bool.and_true, Bool.and_eq_true]
  exact ⟨hdigits _ (by omega), hdigits _ (by omega)⟩

theorem plain_lowerHex (bytes : List UInt8) : (lowerHex bytes).all isPlainChar := by
  rw [all_eq_true]
  intro c hc
  obtain ⟨byte, -, hbyte⟩ := mem_flatMap.mp hc
  exact all_eq_true.mp (plain_hexByte (by decide) byte) c hbyte

theorem mem_escapedHex {bytes : List UInt8} {c : Char} (h : c ∈ escapedHex bytes) :
    c = '\\' ∨ isPlainChar c := by
  obtain ⟨byte, -, hbyte⟩ := mem_flatMap.mp h
  have hhex : ∀ c ∈ hexByte "0123456789ABCDEF".toList byte, isPlainChar c :=
    all_eq_true.mp (plain_hexByte (by decide) byte)
  rw [mem_cons, mem_cons] at hbyte
  obtain rfl | rfl | h := hbyte
  · exact .inl rfl
  · exact .inr (by decide)
  · exact .inr (hhex _ h)

theorem quote_notMem_escapedHex (bytes : List UInt8) : quoteChar ∉ escapedHex bytes := by
  intro hmem
  rcases mem_escapedHex hmem with h | h <;> exact absurd h (by decide)

section Closed

variable (r : LiteralRules)

theorem written_null : Written r "NULL".toList := written_constant r (by decide) (by decide)

theorem written_bit (b : Bool) : Written r (if b then "1" else "0").toList := by
  cases b
  · exact written_number ⟨'0', [], rfl, by decide, by simp, by decide⟩
  · exact written_number ⟨'1', [], rfl, by decide, by simp, by decide⟩

variable {r} in
/-- A moment behind its type. -/
theorem written_moment (hbody : body.all isPlainChar)
    (hword : word = "TIMESTAMP".toList ∨ word = "DATE".toList ∨ word = "TIME".toList) :
    Written r (word ++ ' ' :: quoted body) := by
  obtain rfl | rfl | rfl := hword <;> exact written_typed hbody (.inl rfl) (by decide) (by decide)

/-- `-inf` of ClickHouse. -/
theorem written_minusInf : Written r "-inf".toList := by
  refine ⟨[.symbol '-', .word "inf".toList], fun rest us hrest hus => ?_,
    .signed '-' _ (.inl rfl) rfl (.constant _ (by decide))⟩
  have hword : isWord "inf".toList := by decide
  exact .token (by decide) (by rfl) (lexes_word hword (fun d hd => (hrest d hd).1) hus)

end Closed

section Values

variable {F : Type} (fmt : Formats F)

theorem written_float (d : Dialect) (r : LiteralRules) (f : F) :
    Written r (d.scalarLiteral fmt (.float f)) := by
  cases d with
  | default =>
    rw [Dialect.scalarLiteral, defaultScalar]
    split_ifs with hnan hfinite
    · exact written_plain _ (by decide)
    · exact written_displayFloat fmt _ hfinite
    all_goals exact written_plain _ (by decide)
  | duckdb =>
    change Written _ (duckdbScalar fmt (.float f))
    unfold duckdbScalar
    dsimp only
    split_ifs with hfinite
    · exact written_displayFloat fmt _ hfinite
    all_goals exact (written_plain _ (by decide)).cast (by decide)
  | clickhouse =>
    change Written _ (clickhouseScalar fmt (.float f))
    unfold clickhouseScalar
    dsimp only
    split_ifs with hfinite
    · exact written_displayFloat fmt _ hfinite
    · exact written_constant _ (by decide) (by decide)
    · exact written_constant _ (by decide) (by decide)
    · exact written_minusInf _
  | sqlite =>
    rw [Dialect.scalarLiteral, sqliteScalar]
    split_ifs with hfinite
    · exact written_displayFloat fmt _ hfinite
    · exact written_null _

/-- Every leaf but a decimal is written as a literal; SQLite writes decimals as one too. -/
theorem written_scalar (hr : d.Reads r) {scalar : Scalar F}
    (h : d = .sqlite ∨ ∀ text, scalar ≠ .decimal text) :
    Written r (d.scalarLiteral fmt scalar) := by
  cases scalar with
  | null | unsupported => cases d <;> exact written_null _
  | bool b =>
    cases d with
    | default | duckdb | clickhouse =>
      cases b <;> exact written_constant _ rfl rfl
    | sqlite => exact written_bit _ b
  | int i => cases d <;> exact written_displayInt _ i
  | float f => exact written_float fmt d r f
  | text s => cases d <;> exact written_quote hr s
  | objectId s => cases d <;> exact written_quote hr s
  | json s =>
    cases d with
    | default | clickhouse | sqlite => exact written_quote hr s
    | duckdb => exact (written_quote hr s).cast (by decide)
  | decimal s =>
    obtain rfl | h := h
    · exact written_quote hr s
    · exact absurd rfl (h s)
  | bytes bytes =>
    cases d with
    | default | sqlite =>
      show Written _ (['X'] ++ quoted (lowerHex bytes))
      exact written_typed (plain_lowerHex bytes) (.inr rfl) (by decide) (by decide)
    | duckdb =>
      have hquoted := written_quote hr (escapedHex bytes)
      rw [show Dialect.duckdb.quote (escapedHex bytes) = quoted (escapedHex bytes) from
        congrArg quoted (doubled_eq_self (quote_notMem_escapedHex bytes))] at hquoted
      exact hquoted.cast (by decide)
    | clickhouse => exact written_unhex _ (plain_lowerHex bytes)
  | dateTime n =>
    cases d with
    | default => exact written_plain _ (fmt.plain_formatDateTime n)
    | duckdb => exact written_moment (fmt.plain_formatDateTime n) (.inl rfl)
    | clickhouse | sqlite => exact written_plain _ (fmt.plain_toRfc3339 n)
  | date n =>
    cases d with
    | default | clickhouse | sqlite => exact written_plain _ (fmt.plain_formatDate n)
    | duckdb => exact written_moment (fmt.plain_formatDate n) (.inr (.inl rfl))
  | time n =>
    cases d with
    | default | clickhouse | sqlite => exact written_plain _ (fmt.plain_formatTime n)
    | duckdb => exact written_moment (fmt.plain_formatTime n) (.inr (.inr rfl))

/-- No leaf of the value is a decimal. -/
inductive NoDecimal : ValueTree (Scalar F) → Prop
  | leaf {scalar} : (∀ text, scalar ≠ .decimal text) → NoDecimal (leaf scalar)
  | array {items} : (∀ item ∈ items, NoDecimal item) → NoDecimal (array items)
  | document {fields} : (∀ field ∈ fields, NoDecimal field.2) → NoDecimal (document fields)

theorem itemLiterals_eq (d : Dialect) (items : List (ValueTree (Scalar F))) :
    d.itemLiterals fmt items = items.map (d.valueToLiteral fmt) := by
  induction items with
  | nil => rfl
  | cons item items ih => rw [Dialect.itemLiterals, ih, map_cons]

theorem fieldLiterals_eq (d : Dialect) (fields : List (Text × ValueTree (Scalar F))) :
    d.fieldLiterals fmt fields = (fields.map fun field => (field.1, d.valueToLiteral fmt field.2)).map
      fun field => d.quote field.1 ++ ": ".toList ++ field.2 := by
  induction fields with
  | nil => rfl
  | cons field fields ih =>
    rw [Dialect.fieldLiterals, ih, map_cons, map_cons]

variable {value : ValueTree (Scalar F)}

/-- **A value without decimals is written as a literal in every dialect.** -/
theorem written_value (hr : d.Reads r) (h : NoDecimal value) :
    Written r (d.valueToLiteral fmt value) := by
  induction h with
  | leaf hscalar =>
    exact written_scalar fmt hr (.inr hscalar)
  | @array items _ ih =>
    have hitems : ∀ text ∈ d.itemLiterals fmt items, Written r text := by
      rw [itemLiterals_eq]
      intro text htext
      obtain ⟨item, hitem, rfl⟩ := mem_map.mp htext
      exact ih item hitem
    cases d with
    | default => exact written_array hitems (.inr rfl)
    | duckdb | clickhouse => exact written_array hitems (.inl rfl)
    | sqlite => exact written_quote hr _
  | @document fields _ ih =>
    rw [Dialect.valueToLiteral, fieldLiterals_eq]
    cases d with
    | duckdb =>
      refine written_struct hr ?_
      intro field hfield
      obtain ⟨original, horiginal, rfl⟩ := mem_map.mp hfield
      exact ih original horiginal
    | default | clickhouse | sqlite => exact written_quote hr _

end Values

/-! ## Texts of a literal -/

section Nul

variable {F : Type} (fmt : Formats F)

theorem nul_notMem_plain (h : body.all isPlainChar) : Char.ofNat 0 ∉ body := fun hmem =>
  absurd (all_eq_true.mp h _ hmem) (by decide)

theorem nul_mem_quoted : Char.ofNat 0 ∈ quoted body ↔ Char.ofNat 0 ∈ body := by
  have hquote : Char.ofNat 0 ≠ quoteChar := by decide
  simp [quoted, hquote]

theorem nul_mem_quote (d : Dialect) (text : Text) :
    Char.ofNat 0 ∈ d.quote text ↔ Char.ofNat 0 ∈ text := by
  have hquote : Char.ofNat 0 ≠ quoteChar := by decide
  have hescape {f : Char → Text} (hf : ∀ c, Char.ofNat 0 ∈ f c ↔ Char.ofNat 0 = c) :
      Char.ofNat 0 ∈ text.flatMap f ↔ Char.ofNat 0 ∈ text := by simp [mem_flatMap, hf]
  rw [Dialect.quote, nul_mem_quoted]
  cases d with
  | default | duckdb | sqlite =>
    refine hescape fun c => ?_
    split_ifs with hc <;> simp [hc]
  | clickhouse =>
    refine hescape fun c => ?_
    split_ifs <;> simp

theorem nul_notMem_number (h : IsNumber digits) : Char.ofNat 0 ∉ digits := by
  obtain ⟨c, rest, rfl, hc, hrest, -⟩ := h
  rw [mem_cons, not_or]
  refine ⟨?_, fun hmem => absurd (hrest _ hmem) (by decide)⟩
  rintro rfl
  exact absurd hc (by decide)

theorem nul_notMem_signed {text : Text}
    (h : ∃ digits, IsNumber digits ∧ (text = digits ∨ text = '-' :: digits)) :
    Char.ofNat 0 ∉ text := by
  obtain ⟨digits, hdigits, rfl | rfl⟩ := h
  · exact nul_notMem_number hdigits
  · rw [mem_cons, not_or]
    exact ⟨by decide, nul_notMem_number hdigits⟩

theorem nul_mem_intercalate : Char.ofNat 0 ∈ separator.intercalate texts ↔
    ∃ text ∈ texts, Char.ofNat 0 ∈ text := by
  have hseparator : Char.ofNat 0 ∉ separator := by decide
  induction texts with
  | nil => simp
  | cons text texts ih =>
    cases texts with
    | nil => simp
    | cons next texts =>
      simp only [intercalate_cons_cons, mem_append, ih, hseparator, or_false,
        exists_mem_cons_iff (l := next :: texts)]

theorem nul_notMem_quoted (h : body.all isPlainChar) : Char.ofNat 0 ∉ quoted body := fun hmem =>
  nul_notMem_plain h (nul_mem_quoted.mp hmem)

theorem nul_notMem_float (d : Dialect) (f : F) :
    Char.ofNat 0 ∉ d.scalarLiteral fmt (.float f) := by
  have hfloat (hf : fmt.isFinite f) : Char.ofNat 0 ∉ fmt.displayFloat f :=
    nul_notMem_signed (fmt.isNumber_displayFloat f hf)
  cases d with
  | default =>
    rw [Dialect.scalarLiteral, defaultScalar]
    split_ifs with hnan hfinite
    · exact nul_notMem_quoted rfl
    · exact hfloat hfinite
    all_goals exact nul_notMem_quoted rfl
  | duckdb =>
    change _ ∉ duckdbScalar fmt (.float f)
    unfold duckdbScalar
    dsimp only
    split_ifs with hfinite
    · exact hfloat hfinite
    all_goals exact not_mem_append (nul_notMem_quoted rfl) (by decide)
  | clickhouse =>
    change _ ∉ clickhouseScalar fmt (.float f)
    unfold clickhouseScalar
    dsimp only
    split_ifs with hfinite
    · exact hfloat hfinite
    all_goals decide
  | sqlite =>
    rw [Dialect.scalarLiteral, sqliteScalar]
    split_ifs with hfinite
    · exact hfloat hfinite
    · decide

theorem nul_notMem_bytes (d : Dialect) (bytes : List UInt8) :
    Char.ofNat 0 ∉ d.scalarLiteral fmt (.bytes bytes) := by
  have hhex := nul_notMem_quoted (plain_lowerHex bytes)
  cases d with
  | default | sqlite => exact not_mem_append (s := ['X']) (by decide) hhex
  | duckdb =>
    refine not_mem_append (fun hmem => ?_) (by decide)
    rcases mem_escapedHex (nul_mem_quoted.mp hmem) with h | h <;> exact absurd h (by decide)
  | clickhouse => exact not_mem_append (not_mem_append (by decide) hhex) (by decide)

theorem nul_mem_scalar (d : Dialect) (scalar : Scalar F) :
    Char.ofNat 0 ∈ d.scalarLiteral fmt scalar ↔ Char.ofNat 0 ∈ scalarText scalar := by
  cases scalar with
  | null | unsupported => cases d <;> exact iff_of_false (of_decide_eq_true rfl) not_mem_nil
  | bool b => cases d <;> cases b <;> exact iff_of_false (of_decide_eq_true rfl) not_mem_nil
  | int i =>
    have hint : Char.ofNat 0 ∉ displayInt i := by
      refine nul_notMem_signed ⟨decimal i.natAbs, isNumber_decimal _, ?_⟩
      unfold displayInt
      split <;> simp
    cases d <;> exact iff_of_false hint not_mem_nil
  | float f => exact iff_of_false (nul_notMem_float fmt d f) not_mem_nil
  | text s | objectId s => cases d <;> exact nul_mem_quote _ s
  | json s =>
    cases d with
    | default | clickhouse | sqlite => exact nul_mem_quote _ s
    | duckdb => exact mem_append.trans (or_iff_left (by decide) |>.trans (nul_mem_quote .duckdb s))
  | decimal s =>
    cases d with
    | default | duckdb | clickhouse => exact .rfl
    | sqlite => exact nul_mem_quote .sqlite s
  | bytes bytes => exact iff_of_false (nul_notMem_bytes fmt d bytes) not_mem_nil
  | dateTime n =>
    refine iff_of_false ?_ not_mem_nil
    cases d with
    | default => exact nul_notMem_quoted (fmt.plain_formatDateTime n)
    | duckdb => exact not_mem_append (by decide) (nul_notMem_quoted (fmt.plain_formatDateTime n))
    | clickhouse | sqlite => exact nul_notMem_quoted (fmt.plain_toRfc3339 n)
  | date n =>
    refine iff_of_false ?_ not_mem_nil
    cases d with
    | default | clickhouse | sqlite => exact nul_notMem_quoted (fmt.plain_formatDate n)
    | duckdb => exact not_mem_append (by decide) (nul_notMem_quoted (fmt.plain_formatDate n))
  | time n =>
    refine iff_of_false ?_ not_mem_nil
    cases d with
    | default | clickhouse | sqlite => exact nul_notMem_quoted (fmt.plain_formatTime n)
    | duckdb => exact not_mem_append (by decide) (nul_notMem_quoted (fmt.plain_formatTime n))

/-- A literal has a NUL exactly if a text that was written into it has one. -/
theorem nul_mem_valueToLiteral (d : Dialect) (value : ValueTree (Scalar F)) :
    Char.ofNat 0 ∈ d.valueToLiteral fmt value ↔ ∃ text ∈ d.texts value, Char.ofNat 0 ∈ text := by
  induction value using ValueTree.induct with
  | leaf scalar =>
    rw [Dialect.valueToLiteral, nul_mem_scalar, Dialect.texts]
    simp
  | array items ih =>
    have hitems : (∃ text ∈ d.itemLiterals fmt items, Char.ofNat 0 ∈ text) ↔
        ∃ text ∈ d.itemTexts items, Char.ofNat 0 ∈ text := by
      induction items with
      | nil => rfl
      | cons item items ihItems =>
        obtain ⟨hitem, hrest⟩ := forall_mem_cons.mp ih
        rw [Dialect.itemLiterals, Dialect.itemTexts, exists_mem_cons_iff, ihItems hrest, hitem]
        simp [or_and_right, exists_or]
    rw [Dialect.valueToLiteral, Dialect.texts]
    cases d with
    | default | duckdb | clickhouse =>
      simpa [Dialect.arrayLiteral, nul_mem_intercalate] using hitems
    | sqlite => simp [Dialect.arrayLiteral, nul_mem_quote, fmt.nul_toJson]
  | document fields ih =>
    have hfields : (∃ text ∈ d.fieldLiterals fmt fields, Char.ofNat 0 ∈ text) ↔
        ∃ text ∈ d.fieldTexts fields, Char.ofNat 0 ∈ text := by
      induction fields with
      | nil => rfl
      | cons field fields ihFields =>
        obtain ⟨hfield, hrest⟩ := forall_mem_cons.mp ih
        rw [Dialect.fieldLiterals, Dialect.fieldTexts, exists_mem_cons_iff, ihFields hrest]
        simp [or_and_right, exists_or, nul_mem_quote, hfield, or_assoc]
    rw [Dialect.valueToLiteral, Dialect.texts]
    cases d with
    | duckdb => simpa [Dialect.documentLiteral, nul_mem_intercalate] using hfields
    | default | clickhouse | sqlite =>
      simp [Dialect.documentLiteral, nul_mem_quote, fmt.nul_toJson]

theorem nul_mem_literal_iff (d : Dialect) (value : ValueTree (Scalar F)) (columnType : Option Text) :
    Char.ofNat 0 ∈ d.valueToLiteralTyped fmt value columnType ↔
      ∃ text ∈ d.texts value, Char.ofNat 0 ∈ text := by
  unfold Dialect.valueToLiteralTyped
  split
  next n type =>
    split
    · refine iff_of_false ?_ (by simp [Dialect.texts, scalarText])
      simp [nul_notMem_quoted, fmt.plain_toRfc3339]
    · exact nul_mem_valueToLiteral fmt _ _
  next => exact nul_mem_valueToLiteral fmt d value

end Nul

/-! ## What an import can hold -/

section Imports

variable {F : Type} (fmt : Formats F)

theorem noDecimal_valueFromPlainText (text typeLower : Text) :
    NoDecimal (valueFromPlainText fmt text typeLower) := by
  refine .leaf fun decimal hdecimal => ?_
  have hnone : ∀ {α : Type} (o : Option α) (f : α → Scalar F),
      (∀ a, f a ≠ .decimal decimal) → (o.map f) ≠ some (.decimal decimal) := by
    intro α o f hf hmap
    obtain ⟨a, -, ha⟩ := map_eq_some_iff.mp hmap
    exact hf a ha
  -- none of the three readings gives a decimal, and neither does the text itself
  have hget : ∀ o : Option (Scalar F), o ≠ some (.decimal decimal) →
      o.getD (.text text) ≠ .decimal decimal := by
    intro o ho
    cases o with
    | none => exact fun heq => nomatch (heq : Scalar.text text = .decimal decimal)
    | some scalar => exact fun heq => ho (congrArg some heq)
  have hor : ∀ a b : Option (Scalar F), a ≠ some (.decimal decimal) → b ≠ some (.decimal decimal) →
      a.or b ≠ some (.decimal decimal) := by
    intro a b ha hb
    cases a with
    | none => exact hb
    | some scalar => exact ha
  refine hget _ (hor _ _ (hor _ _ ?_ ?_) ?_) hdecimal
  · split
    · exact hnone _ _ fun _ => nofun
    · exact nofun
  · split
    · exact hnone _ _ fun _ => nofun
    · exact nofun
  · split
    · exact hnone _ _ fun _ => nofun
    split
    · exact hnone _ _ fun _ => nofun
    split
    · exact hnone _ _ fun _ => nofun
    · exact nofun

/-- A text becomes a decimal, verbatim, or something that is none. -/
theorem valueFromText_cases (text : Text) (typeName : Option Text) :
    NoDecimal (valueFromText fmt text typeName) ∨
      isDecimalType ((typeName.getD []).map Char.toLower) = true ∧
        valueFromText fmt text typeName = leaf (.decimal text) := by
  unfold valueFromText
  dsimp only
  split
  · exact .inl (.leaf fun _ => nofun)
  split
  · exact .inl (.leaf fun _ => nofun)
  split
  next hdecimal => exact .inr ⟨hdecimal, rfl⟩
  next => exact .inl (noDecimal_valueFromPlainText fmt text _)

variable {members : List (Text × Json)}

theorem decodeExtended_ne_decimal {scalar : Scalar F}
    (h : decodeExtended fmt members = some (some scalar)) (text : Text) :
    scalar ≠ .decimal text := by
  unfold decodeExtended at h
  split at h
  · cases h
    rintro ⟨⟩
  split at h
  · cases h
    rintro ⟨⟩
  split at h
  · obtain ⟨unsupported, -, rfl⟩ := map_eq_some_iff.mp (Option.some.inj h)
    rintro ⟨⟩
  · obtain ⟨bytes, -, hbytes⟩ := map_eq_some_iff.mp h
    cases bytes with
    | some bytes =>
      cases hbytes
      rintro ⟨⟩
    | none =>
      obtain ⟨unsupported, -, rfl⟩ := map_eq_some_iff.mp hbytes
      rintro ⟨⟩

theorem itemsFromJson_forall {items : List Json} {values : List (ValueTree (Scalar F))}
    (h : itemsFromJson fmt items = some values)
    (hitems : ∀ item ∈ items, ∀ value, valueFromJson fmt none item = some value → NoDecimal value) :
    ∀ value ∈ values, NoDecimal value := by
  induction items generalizing values with
  | nil =>
    cases h
    simp
  | cons item items ih =>
    obtain ⟨value, hvalue, h⟩ := bind_eq_some_iff.mp h
    obtain ⟨rest, hrest, h⟩ := bind_eq_some_iff.mp h
    cases h
    obtain ⟨hitem, hitems⟩ := forall_mem_cons.mp hitems
    exact forall_mem_cons.mpr ⟨hitem value hvalue, ih hrest hitems⟩

theorem itemsFromJson_of_members {fields : List (Text × ValueTree (Scalar F))}
    (h : membersFromJson fmt members = some fields) :
    itemsFromJson fmt (members.map Prod.snd) = some (fields.map Prod.snd) := by
  induction members generalizing fields with
  | nil =>
    cases h
    rfl
  | cons member members ih =>
    obtain ⟨value, hvalue, h⟩ := bind_eq_some_iff.mp h
    obtain ⟨rest, hrest, h⟩ := bind_eq_some_iff.mp h
    cases h
    simp [itemsFromJson, hvalue, ih hrest]

/-- Only a string at the top can become a decimal. -/
theorem valueFromJson_cases (json : Json) (typeName : Option Text)
    (h : valueFromJson fmt typeName json = some value) :
    NoDecimal value ∨ ∃ text, json = .string text ∧
      isDecimalType ((typeName.getD []).map Char.toLower) = true ∧ value = leaf (.decimal text) := by
  induction json using Json.induct generalizing typeName value with
  | null | bool => rw [valueFromJson] at h; cases h; exact .inl (.leaf fun _ => nofun)
  | number text =>
    rw [valueFromJson] at h
    split at h <;> cases h <;> exact .inl (.leaf fun _ => nofun)
  | string text =>
    cases h
    obtain hnone | ⟨htype, hvalue⟩ := valueFromText_cases fmt text typeName
    · exact .inl hnone
    · exact .inr ⟨text, rfl, htype, hvalue⟩
  | array items ih =>
    obtain ⟨values, hvalues, rfl⟩ := map_eq_some_iff.mp h
    refine .inl (.array (itemsFromJson_forall fmt hvalues fun item hitem value hvalue => ?_))
    obtain hnone | ⟨_, _, htype, _⟩ := ih item hitem none hvalue
    · exact hnone
    · exact absurd htype (by decide)
  | object members ih =>
    rw [valueFromJson] at h
    split at h
    · cases h
    next scalar hextended =>
      cases h
      exact .inl (.leaf (decodeExtended_ne_decimal fmt hextended))
    next hextended =>
      obtain ⟨fields, hfields, rfl⟩ := map_eq_some_iff.mp h
      refine .inl (.document (forall_mem_map.mp (itemsFromJson_forall fmt
        (itemsFromJson_of_members fmt hfields)
        (forall_mem_map.mpr fun member hmember value hvalue => ?_))))
      obtain hnone | ⟨_, _, htype, _⟩ := ih member hmember none hvalue
      · exact hnone
      · exact absurd htype (by decide)

/-- What a file holds for a column of a type. -/
inductive FromFile (typeName : Option Text) : ValueTree (Scalar F) → Prop
  | csv (field : Text) : FromFile typeName (valueFromCsvField fmt field typeName)
  | json {json : Json} {value : ValueTree (Scalar F)} : valueFromJson fmt typeName json = some value →
      FromFile typeName value

variable {typeName : Option Text}

theorem FromFile.cases (h : FromFile fmt typeName value) :
    NoDecimal value ∨ ∃ text, value = leaf (.decimal text) := by
  cases h with
  | csv field =>
    unfold valueFromCsvField
    split
    · exact .inl (.leaf fun _ => nofun)
    · exact (valueFromText_cases fmt field typeName).imp_right fun h => ⟨field, h.2⟩
  | json h =>
    exact (valueFromJson_cases fmt _ typeName h).imp_right
      fun ⟨text, _, _, hvalue⟩ => ⟨text, hvalue⟩

/-- The engine reads a text as one literal, or as a cast or collection of literals. -/
def IsValue (r : LiteralRules) (text : Text) : Prop :=
  ∃ ts, r.tokens text = some ts ∧ IsLiteral r ts

/-- What the engine takes for the end of the text does not occur. -/
def NulFree (r : LiteralRules) (text : Text) : Prop := r.nulEnds → Char.ofNat 0 ∉ text

theorem IsValue.nulFree (h : IsValue r text) : NulFree r text := by
  obtain ⟨ts, htokens, -⟩ := h
  exact fun hends hmem => (tokens_eq_some_iff.mp htokens).1 ⟨hends, hmem⟩

theorem isValue_iff_of_written (h : Written r text) : IsValue r text ↔ NulFree r text := by
  refine ⟨IsValue.nulFree, fun hnul => ?_⟩
  obtain ⟨ts, hyields, hliteral⟩ := h
  exact ⟨ts, tokens_eq_some_iff.mpr ⟨fun hboth => hnul hboth.1 hboth.2, hyields.lexes⟩, hliteral⟩

theorem written_valueTyped (hr : d.Reads r) (h : NoDecimal value) (columnType : Option Text) :
    Written r (d.valueToLiteralTyped fmt value columnType) := by
  unfold Dialect.valueToLiteralTyped
  split
  next n type =>
    split
    · exact (written_plain _ (fmt.plain_toRfc3339 n)).cast (by decide)
    · exact written_value fmt hr h
  next => exact written_value fmt hr h

theorem literal_decimal (d : Dialect) (text : Text) (columnType : Option Text) :
    d.valueToLiteralTyped fmt (leaf (.decimal text)) columnType =
      if d = .sqlite then Dialect.sqlite.quote text else text := by
  cases d <;> rw [Dialect.valueToLiteralTyped, Dialect.valueToLiteral] <;> first | rfl | nofun

/-- What makes a value of a file data: none of its texts has a character that ends the
statement for the engine, and a decimal that is not quoted is itself a literal. -/
structure IsData (d : Dialect) (r : LiteralRules) (value : ValueTree (Scalar F)) : Prop where
  texts : ∀ text ∈ d.texts value, NulFree r text
  decimal : ∀ text, value = leaf (.decimal text) → d ≠ .sqlite → IsValue r text

/-- **When one imported value is written as one literal.** -/
theorem isValue_literal_iff (hr : d.Reads r) (h : FromFile fmt typeName value) :
    IsValue r (d.valueToLiteralTyped fmt value typeName) ↔ IsData d r value := by
  have hnul : NulFree r (d.valueToLiteralTyped fmt value typeName) ↔
      ∀ text ∈ d.texts value, NulFree r text := by
    simp only [NulFree, nul_mem_literal_iff, not_exists, not_and]
    exact ⟨fun h text hmem hends => h hends text hmem, fun h hends text hmem => h text hmem hends⟩
  obtain hnone | ⟨text, rfl⟩ := h.cases
  · rw [isValue_iff_of_written (written_valueTyped fmt hr hnone typeName), hnul]
    refine ⟨fun htexts => ⟨htexts, fun text hvalue _ => ?_⟩, IsData.texts⟩
    subst hvalue
    cases hnone with
    | leaf hscalar => exact absurd rfl (hscalar text)
  · rw [literal_decimal] at hnul ⊢
    by_cases hd : d = .sqlite
    · subst hd
      rw [if_pos rfl] at hnul ⊢
      rw [isValue_iff_of_written (written_quote hr text), hnul]
      exact ⟨fun htexts => ⟨htexts, fun _ _ hne => absurd rfl hne⟩, IsData.texts⟩
    · rw [if_neg hd] at hnul ⊢
      refine ⟨fun hvalue => ⟨hnul.mp hvalue.nulFree, fun other hother _ => ?_⟩, ?_⟩
      · cases hother
        exact hvalue
      · exact fun hdata => hdata.decimal text rfl hd

/-! ## Rows -/

/-- The tokens of a row. -/
def tupleTokens (values : List (List Token)) : List Token :=
  .symbol '(' :: [.symbol ','].intercalate values ++ [.symbol ')']

/-- Values behind one another, in front of the closing parenthesis. -/
theorem lexes_tuple {columnTypes : List (Option Text)} {row : List (ValueTree (Scalar F))}
    (h : ∀ text ∈ rowLiterals fmt d columnTypes row, IsValue r text) :
    ∃ values : List (List Token), values.length = row.length ∧ (∀ ts ∈ values, IsLiteral r ts) ∧
      ∀ rest us, Lexes r rest us →
        Lexes r (rowTuple fmt d columnTypes row ++ rest) (tupleTokens values ++ us) := by
  choose! tokens htokens hliteral using h
  refine ⟨(rowLiterals fmt d columnTypes row).map tokens, by simp [rowLiterals],
    forall_mem_map.mpr hliteral, fun rest us hus => ?_⟩
  have hvalue : ∀ text ∈ rowLiterals fmt d columnTypes row, ∀ rest us, Separates rest →
      Lexes r rest us → Lexes r (id text ++ rest) (tokens text ++ us) := fun text htext _ _ =>
    (tokens_eq_some_iff.mp (htokens text htext)).2.append
  have hclose : Lexes r (')' :: rest) (.symbol ')' :: us) := lexes_symbol (by simp) hus
  have hbody := lexes_items hvalue (fun _ => ⟨_, _, rfl, .inl rfl⟩)
    ⟨_, _, rfl, .inr (.inl rfl)⟩ hclose
  have hopen : Lexes r ('(' :: _) (.symbol '(' :: _) := lexes_symbol (by simp) hbody
  simpa [rowTuple, tupleTokens] using hopen

theorem nul_notMem_rows {columnTypes : List (Option Text)}
    {rows : List (List (ValueTree (Scalar F)))} (hends : r.nulEnds)
    (h : ∀ row ∈ rows, ∀ text ∈ rowLiterals fmt d columnTypes row, IsValue r text) :
    Char.ofNat 0 ∉ separator.intercalate (rows.map (rowTuple fmt d columnTypes)) := by
  simp only [nul_mem_intercalate, mem_map, exists_exists_and_eq_and, not_exists, not_and]
  intro row hrow hmem
  simp only [rowTuple, cons_append, mem_cons, mem_append, nul_mem_intercalate,
    not_mem_nil, or_false] at hmem
  rcases hmem with hmem | ⟨text, htext, hmem⟩ | hmem
  · exact absurd hmem (by decide)
  · exact (h row hrow text htext).nulFree hends hmem
  · exact absurd hmem (by decide)

/-- **When imported data stays data.** Each value is written as one literal exactly if
it is data: no decimal, or one that is quoted or is a literal itself, and no text in it
with a character that ends the statement. The statement of rows of such values is read
as its head and one literal for each value of each row, with no separator between the
commas. -/
theorem imported_rows_are_data (hr : d.Reads r) {columnTypes : List (Option Text)}
    {rows : List (List (ValueTree (Scalar F)))}
    (h : ∀ row ∈ rows, ∀ (i : ℕ) value, row[i]? = some value →
      FromFile fmt (columnTypes[i]?.join) value) :
    (∀ row ∈ rows, ∀ (i : ℕ) value, row[i]? = some value →
      (IsValue r (d.valueToLiteralTyped fmt value (columnTypes[i]?.join)) ↔ IsData d r value)) ∧
    ((∀ row ∈ rows, ∀ value ∈ row, IsData d r value) → ∀ (tableRef columns sql : Text) head,
      buildBulkInsert fmt d tableRef columns columnTypes rows = some sql →
      r.tokens (insertHead tableRef columns) = some head →
      ∃ tuples : List (List (List Token)),
        r.tokens sql = some (head ++ [.symbol ','].intercalate (tuples.map tupleTokens)) ∧
        List.Forall₂ (fun values row => values.length = row.length ∧
          ∀ ts ∈ values, IsLiteral r ts ∧ Enclosed ts) tuples rows) := by
  have hiff : ∀ row ∈ rows, ∀ (i : ℕ) value, row[i]? = some value →
      (IsValue r (d.valueToLiteralTyped fmt value (columnTypes[i]?.join)) ↔ IsData d r value) :=
    fun row hrow i value hvalue => isValue_literal_iff fmt hr (h row hrow i value hvalue)
  refine ⟨hiff, fun hdata tableRef columns sql head hsql hhead => ?_⟩
  have hliterals : ∀ row ∈ rows, ∀ text ∈ rowLiterals fmt d columnTypes row, IsValue r text := by
    intro row hrow text htext
    obtain ⟨i, hi, rfl⟩ := mem_mapIdx.mp htext
    exact (hiff row hrow i _ (getElem?_eq_getElem hi)).mpr (hdata row hrow _ (getElem_mem hi))
  have htuples : ∀ row ∈ rows, ∃ values : List (List Token), values.length = row.length ∧
      (∀ ts ∈ values, IsLiteral r ts) ∧ ∀ rest us, Lexes r rest us →
        Lexes r (rowTuple fmt d columnTypes row ++ rest) (tupleTokens values ++ us) :=
    fun row hrow => lexes_tuple fmt (hliterals row hrow)
  choose! values hlength hvalues hlexes using htuples
  refine ⟨rows.map values, ?_, ?_⟩
  · unfold buildBulkInsert at hsql
    split_ifs at hsql
    cases hsql
    obtain ⟨hnul, hhead⟩ := tokens_eq_some_iff.mp hhead
    refine tokens_eq_some_iff.mpr ⟨?_, hhead.append ⟨_, _, rfl, .inr (.inr rfl)⟩ ?_⟩
    · rintro ⟨hends, hmem⟩
      rw [mem_append, mem_cons] at hmem
      rcases hmem with hmem | hmem | hmem
      · exact hnul ⟨hends, hmem⟩
      · exact absurd hmem (by decide)
      · exact nul_notMem_rows fmt hends hliterals hmem
    · refine .space (by decide) ?_
      have hrows := lexes_items (P := fun _ => True)
        (fun row hrow rest us _ => hlexes row hrow rest us) (fun _ => trivial) trivial (.nil (r := r))
      simpa [Function.comp_def] using hrows
  · rw [forall₂_map_left_iff, forall₂_same]
    exact fun row hrow => ⟨hlength row hrow, fun ts hts =>
      ⟨hvalues row hrow ts hts, (hvalues row hrow ts hts).enclosed⟩⟩

end Imports

/-! ## Two rows -/

/-- Whole numbers, and no dates. -/
def plainFormats : Formats ℕ where
  isFinite _ := true
  isNan _ := false
  isSignPositive _ := true
  displayFloat := decimal
  parseFloat := parseUsize
  asI64 := parseI64
  asF64 := parseUsize
  parseRfc3339 _ := none
  parseDate _ := none
  parseTime _ := none
  formatDateTime _ := []
  toRfc3339 _ := []
  formatDate _ := []
  formatTime _ := []
  toJson _ := []
  isNumber_displayFloat f _ := ⟨decimal f, isNumber_decimal f, .inl rfl⟩
  plain_formatDateTime _ := rfl
  plain_toRfc3339 _ := rfl
  plain_formatDate _ := rfl
  plain_formatTime _ := rfl
  nul_toJson _ := not_mem_nil

def droppingField : Text := "0); DROP TABLE users; --".toList

/-- In a column of texts the field is one string. -/
theorem dropping_text_is_data : IsValue Dialect.default.rules
    (Dialect.default.valueToLiteralTyped plainFormats
      (valueFromCsvField plainFormats droppingField (some "text".toList)) (some "text".toList)) := by
  have hrows : ∀ row ∈ [[valueFromCsvField plainFormats droppingField (some "text".toList)]],
      ∀ (i : ℕ) value, row[i]? = some value →
        FromFile plainFormats (([some "text".toList] : List (Option Text))[i]?.join) value := by
    intro row hrow i value hvalue
    rw [mem_singleton] at hrow
    subst hrow
    cases i with
    | zero =>
      cases hvalue
      exact .csv droppingField
    | succ i => cases hvalue
  have hreads : Dialect.default.Reads Dialect.default.rules := rfl
  refine ((imported_rows_are_data plainFormats hreads hrows).1 _ (mem_singleton_self _) 0 _ rfl).mpr
    ⟨fun _ _ => nofun, fun text htext => ?_⟩
  have hfield : valueFromCsvField plainFormats droppingField (some "text".toList) =
      leaf (.text droppingField) := rfl
  cases hfield.symm.trans htext

/-- In a column of numbers every dialect but SQLite's writes the field as it is. -/
theorem dropping_number_is_written_raw (d : Dialect) (hd : d ≠ .sqlite) :
    d.valueToLiteralTyped plainFormats
        (valueFromCsvField plainFormats droppingField (some "numeric".toList))
        (some "numeric".toList) = droppingField ∧ ¬ IsValue d.rules droppingField := by
  have hvalue : valueFromCsvField plainFormats droppingField (some "numeric".toList) =
      leaf (.decimal droppingField) := rfl
  refine ⟨by rw [hvalue, literal_decimal, if_neg hd], ?_⟩
  rintro ⟨ts, htokens, hliteral⟩
  have henclosed := hliteral.enclosed 0
  have hnot : (d.rules.tokens droppingField).bind (deepenAll 0) = none := by
    cases d <;> decide +kernel
  rw [htokens, Option.bind_some, henclosed] at hnot
  cases hnot

/-- There it ends the row, and a statement follows. -/
theorem dropping_number_is_a_statement :
    buildBulkInsert plainFormats .default "t".toList "n".toList [some "numeric".toList]
        [[valueFromCsvField plainFormats droppingField (some "numeric".toList)]] =
      some "INSERT INTO t (n) VALUES (0); DROP TABLE users; --)".toList ∧
    ∀ d : Dialect, d ≠ .sqlite → ¬ IsValue d.rules (d.valueToLiteralTyped plainFormats
      (valueFromCsvField plainFormats droppingField (some "numeric".toList))
      (some "numeric".toList)) := by
  refine ⟨by decide +kernel, fun d hd => ?_⟩
  obtain ⟨hraw, hnot⟩ := dropping_number_is_written_raw d hd
  rwa [hraw]

end Dbflux.Transfer

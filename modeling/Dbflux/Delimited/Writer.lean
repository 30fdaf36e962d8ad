import Dbflux.Lib.OrderedMap
import Dbflux.Delimited.Reader

/-!
# The byte-preserving writer

`write_edited` (`dbflux_delimited/src/writer.rs`) rewrites a source with
a set of edits: it checks and renders the edits (`Plan.build`), checks the
ranges against the source (`checkBeforeWriting`), and then copies or renders
the records one after another. Without appended columns everything between two
edited records is copied by range (`writeByRange`); with them every record is
scanned (`writeByRecord`).

A method of `Output` runs in `EStateM` over the source it reads and the sink
it writes, so that a save that fails leaves what was already written.
-/

namespace Dbflux.Delimited

open Lib

/-! ## Edits -/

/-- `Range<u64>`. -/
structure ByteRange where
  start : ℕ
  finish : ℕ
  deriving DecidableEq, Repr

/-- `InsertPosition` (lines 21–28). -/
inductive InsertPosition where
  | before (range : ByteRange)
  | atEnd
  deriving DecidableEq, Repr

/-- `Replacement` (lines 31–37). -/
structure Replacement where
  byteRange : ByteRange
  fields : List Text
  deriving DecidableEq, Repr

/-- `Insertion` (lines 40–45). -/
structure Insertion where
  position : InsertPosition
  fields : List Text
  deriving DecidableEq, Repr

/-- `AppendedColumn` (lines 49–61). -/
structure AppendedColumn where
  header : Text
  defaultValue : Text
  values : List (ByteRange × Text)
  deriving DecidableEq, Repr

/-- `EditSet` (lines 76–92). -/
structure EditSet where
  sourceLength : ℕ
  replacements : List Replacement
  deletions : List ByteRange
  insertions : List Insertion
  appendedColumns : List AppendedColumn
  deriving DecidableEq, Repr

/-- `EditLocation` (lines 120–131). -/
inductive EditLocation where
  | existing (range : ByteRange)
  | inserted (index : ℕ)
  | appendedColumn (index : ℕ)
  deriving DecidableEq, Repr

/-- `WriteError` (lines 153–276). The sink's own error carries
nothing here. -/
inductive WriteError where
  | source (message : String)
  | sink
  | read (error : ReadError)
  | sourceChanged (expected actual : ℕ)
  | rangeOutsideSource (range : ByteRange) (sourceLength : ℕ)
  | notARecord (range : ByteRange)
  | overlappingEdits (first second : ByteRange)
  | duplicateEdit (range : ByteRange)
  | replacedAndDeleted (range : ByteRange)
  | unencodableCharacter (record : EditLocation) (character : Char) (encoding : String)
  | unquotableField (record : EditLocation) (field : ℕ)
  | leadingByteOrderMark (offset : ℕ)
  | fusedLineBreak (offset : ℕ)
  | truncatedCodeUnit (sourceLength : ℕ)
  | unclosedQuote (byteRange : ByteRange)
  deriving DecidableEq, Repr

/-- `From<ReadError> for WriteError`. -/
def WriteError.ofRead : ReadError → WriteError
  | .source message => .source message
  | error => .read error

/-! ## Encoding a text -/

/-- The UTF-16 code units of a character (`char::encode_utf16`). -/
def utf16Units (c : Char) : List ℕ :=
  if c.toNat < 0x10000 then [c.toNat]
  else [0xD800 + (c.toNat - 0x10000) / 0x400, 0xDC00 + (c.toNat - 0x10000) % 0x400]

/-- The loop of `encode_text` over an `encoding_rs` encoder: the bytes, or the
first character without any and its offset in the UTF-8 form of the text. -/
def encodeWith (encodeChar : Char → Option Bytes) (offset : ℕ) : Text → Except (ℕ × Char) Bytes
  | [] => .ok []
  | c :: rest =>
    match encodeChar c with
    | none => .error (offset, c)
    | some bytes =>
      match encodeWith encodeChar (offset + c.utf8Size) rest with
      | .ok encoded => .ok (bytes ++ encoded)
      | .error e => .error e

/-- `encode_text` (lines 954–1000). -/
def encodeText (encoding : Encoding) (text : Text) : Except (ℕ × Char) Bytes :=
  match encoding.kind with
  | .utf8 => .ok (text.flatMap String.utf8EncodeChar)
  | .utf16LE => .ok ((text.flatMap utf16Units).flatMap UnitWidth.utf16LittleEndian.unitBytes)
  | .utf16BE => .ok ((text.flatMap utf16Units).flatMap UnitWidth.utf16BigEndian.unitBytes)
  | _ => encodeWith encoding.encodeChar 0 text

/-! ## Rendering -/

/-- U+FEFF. -/
def zeroWidthNoBreak : Char := Char.ofNat 0xFEFF

/-- `Renderer` (lines 826–829). -/
structure Renderer where
  layout : Layout
  encoding : Encoding

namespace Renderer

/-- A unit that a field cannot hold unquoted. -/
def isStructural (layout : Layout) (unit : ℕ) : Bool :=
  decide (unit = layout.delimiter) || decide (some unit = layout.quote) ||
    decide (unit = lineFeed) || decide (unit = carriageReturn)

/-- The units of a field enclosed in quotes, every quote inside doubled. -/
def quoted (width : UnitWidth) (quote : ℕ) (units : List ℕ) : Bytes :=
  width.unitBytes quote ++ units.flatMap (fun unit =>
      if unit = quote then width.unitBytes quote ++ width.unitBytes unit
      else width.unitBytes unit) ++
    width.unitBytes quote

/-- `Renderer::field` (lines 873–944): the bytes it appends. -/
def field (r : Renderer) (text : Text) (isOnlyField : Bool) (location : EditLocation)
    (index : ℕ) : Except WriteError Bytes :=
  match encodeText r.encoding text with
  | .error (_, character) =>
    .error (.unencodableCharacter location character r.encoding.name)
  | .ok encoded =>
    let units := r.layout.width.units encoded
    let hasStructuralUnit := units.any (isStructural r.layout)
    let isPadded := text.head?.any isWhitespace || text.getLast?.any isWhitespace
    let isOnlyAndEmpty := isOnlyField && text.isEmpty
    let startsLikeAMark := decide (text.head? = some zeroWidthNoBreak)
    match r.layout.quote with
    | none =>
      if hasStructuralUnit || isOnlyAndEmpty || startsLikeAMark then
        .error (.unquotableField location index)
      else .ok encoded
    | some quote =>
      if !(hasStructuralUnit || isPadded || isOnlyAndEmpty || startsLikeAMark) then .ok encoded
      else .ok (quoted r.layout.width quote units)

/-- The loop of `Renderer::record` from field `index` on. -/
def recordFrom (r : Renderer) (isOnlyField : Bool) (location : EditLocation) :
    ℕ → List Text → Except WriteError Bytes
  | _, [] => .ok []
  | index, text :: rest => do
    let rendered ← r.field text isOnlyField location index
    let following ← r.recordFrom isOnlyField location (index + 1) rest
    let delimiter := if index > 0 then r.layout.width.unitBytes r.layout.delimiter else []
    pure (delimiter ++ rendered ++ following)

/-- `Renderer::record` (lines 841–857). -/
def record (r : Renderer) (fields : List Text) (location : EditLocation) :
    Except WriteError Bytes :=
  match fields with
  | [] => r.field [] true location 0
  | _ => r.recordFrom (decide (fields.length = 1)) location 0 fields

/-- `Renderer::appended_field` (lines 860–869). -/
def appendedField (r : Renderer) (text : Text) (location : EditLocation) :
    Except WriteError Bytes := do
  let rendered ← r.field text false location 0
  pure (r.layout.width.unitBytes r.layout.delimiter ++ rendered)

end Renderer

/-! ## Planning -/

/-- `Action` (lines 548–556). -/
inductive Action where
  | keep
  | replace (rendered : Bytes)
  | delete
  deriving DecidableEq, Repr

/-- `RecordPlan` (lines 560–576). -/
structure RecordPlan where
  finish : ℕ
  insertedBefore : List Bytes
  action : Action
  appended : Option Bytes
  terminator : Bytes
  deriving DecidableEq, Repr

/-- `BTreeMap<u64, RecordPlan>`: the edited records by their start. -/
abbrev PlannedRecords := OrderedMap ℕ RecordPlan

/-- `AppendedFields` (lines 581–584). -/
structure AppendedFields where
  header : Bytes
  default : Bytes
  deriving DecidableEq, Repr

/-- `Plan` (lines 588–598). -/
structure Plan where
  records : PlannedRecords
  insertedAtEnd : List Bytes
  appended : Option AppendedFields

/-- `Plan::final_record_is` (lines 603–607). -/
def Plan.finalRecordIs (plan : Plan) (bounds : ByteRange) (isSought : Action → Bool) : Bool :=
  plan.records.entries.any fun entry =>
    decide (entry.2.finish = bounds.finish) && isSought entry.2.action

/-- `planned_record` (lines 703–737): the plan of the record at
`range`, a fresh one when no edit has named the record yet. -/
def plannedRecord (records : PlannedRecords) (bounds range : ByteRange) :
    Except WriteError RecordPlan :=
  if range.start ≥ range.finish ∨ range.finish > bounds.finish then
    .error (.rangeOutsideSource range bounds.finish)
  else if range.start < bounds.start then .error (.notARecord range)
  else
    let record := (records.get? range.start).getD ⟨range.finish, [], .keep, none, []⟩
    if record.finish ≠ range.finish then
      .error (.overlappingEdits ⟨range.start, record.finish⟩ range)
    else .ok record

/-- The loop of `Plan::build` over the replacements. -/
def planReplacements (renderer : Renderer) (bounds : ByteRange) :
    List Replacement → PlannedRecords → Except WriteError PlannedRecords
  | [], records => .ok records
  | replacement :: rest, records => do
    let range := replacement.byteRange
    let record ← plannedRecord records bounds range
    if record.action ≠ .keep then throw (.duplicateEdit range)
    let rendered ← renderer.record replacement.fields (.existing range)
    planReplacements renderer bounds rest
      (records.set range.start { record with action := .replace rendered })

/-- The loop of `Plan::build` over the deletions. -/
def planDeletions (bounds : ByteRange) :
    List ByteRange → PlannedRecords → Except WriteError PlannedRecords
  | [], records => .ok records
  | range :: rest, records => do
    let record ← plannedRecord records bounds range
    match record.action with
    | .keep => planDeletions bounds rest (records.set range.start { record with action := .delete })
    | .replace _ => throw (.replacedAndDeleted range)
    | .delete => throw (.duplicateEdit range)

/-- The loop of `Plan::build` over the insertions, from insertion `index` on. -/
def planInsertions (renderer : Renderer) (bounds : ByteRange) :
    ℕ → List Insertion → PlannedRecords → List Bytes →
    Except WriteError (PlannedRecords × List Bytes)
  | _, [], records, atEnd => .ok (records, atEnd)
  | index, insertion :: rest, records, atEnd => do
    let rendered ← renderer.record insertion.fields (.inserted index)
    match insertion.position with
    | .before range =>
      let record ← plannedRecord records bounds range
      planInsertions renderer bounds (index + 1) rest (records.set range.start
          { record with insertedBefore := record.insertedBefore ++ [rendered] }) atEnd
    | .atEnd => planInsertions renderer bounds (index + 1) rest records (atEnd ++ [rendered])

/-- The values given to one record, by column: `BTreeMap<u64, (Range<u64>,
Vec<Option<&str>>)>`. -/
abbrev OwnValues := OrderedMap ℕ (ByteRange × List (Option Text))

/-- The loop of `plan_appended_columns` over the values of column `index`. -/
def planValues (bounds : ByteRange) (columnCount index : ℕ) :
    List (ByteRange × Text) → PlannedRecords → OwnValues →
    Except WriteError (PlannedRecords × OwnValues)
  | [], records, own => .ok (records, own)
  | (range, value) :: rest, records, own => do
    let record ← plannedRecord records bounds range
    let (range', values) :=
      (own.get? range.start).getD (range, List.replicate columnCount none)
    match values[index]? with
    | some none =>
      planValues bounds columnCount index rest (records.set range.start record)
        (own.set range.start (range', values.set index (some value)))
    | _ => throw (.duplicateEdit range)

/-- The loop of `plan_appended_columns` over the columns, from column `index`
on. -/
def planColumns (renderer : Renderer) (bounds : ByteRange) (hasHeader : Bool) (columnCount : ℕ) :
    ℕ → List AppendedColumn → AppendedFields → PlannedRecords → OwnValues →
    Except WriteError (AppendedFields × PlannedRecords × OwnValues)
  | _, [], fields, records, own => .ok (fields, records, own)
  | index, column :: rest, fields, records, own => do
    let location := EditLocation.appendedColumn index
    let header ← if hasHeader then renderer.appendedField column.header location else .ok []
    let default ← renderer.appendedField column.defaultValue location
    let (records, own) ← planValues bounds columnCount index column.values records own
    planColumns renderer bounds hasHeader columnCount (index + 1) rest
      ⟨fields.header ++ header, fields.default ++ default⟩ records own

/-- The fields a record with values of its own gets (lines
800–818), from column `index` on. -/
def renderOwn (renderer : Renderer) (range : ByteRange) (isHeader : Bool) :
    ℕ → List AppendedColumn → List (Option Text) → Except WriteError Bytes
  | index, column :: columns, value :: values => do
    let rendered ← match value with
      | some value => renderer.appendedField value (.existing range)
      | none =>
        renderer.appendedField (if isHeader then column.header else column.defaultValue)
          (.appendedColumn index)
    let following ← renderOwn renderer range isHeader (index + 1) columns values
    pure (rendered ++ following)
  | _, _, _ => .ok []

/-- The loop of `plan_appended_columns` over the records with values of their
own. -/
def planOwnValues (renderer : Renderer) (bounds : ByteRange) (headerStart : Option ℕ)
    (columns : List AppendedColumn) :
    List (ℕ × ByteRange × List (Option Text)) → PlannedRecords → Except WriteError PlannedRecords
  | [], records => .ok records
  | (_, range, values) :: rest, records => do
    let record ← plannedRecord records bounds range
    if record.action ≠ .keep then
      planOwnValues renderer bounds headerStart columns rest (records.set range.start record)
    else
      let rendered ←
        renderOwn renderer range (decide (headerStart = some range.start)) 0 columns values
      planOwnValues renderer bounds headerStart columns rest
        (records.set range.start { record with appended := some rendered })

/-- `plan_appended_columns` (lines 739–823). -/
def planAppendedColumns (renderer : Renderer) (bounds : ByteRange) (headerStart : Option ℕ)
    (columns : List AppendedColumn) (records : PlannedRecords) :
    Except WriteError (Option AppendedFields × PlannedRecords) :=
  if columns.isEmpty then .ok (none, records)
  else do
    let (fields, records, own) ← planColumns renderer bounds headerStart.isSome columns.length 0
      columns ⟨[], []⟩ records OrderedMap.empty
    let records ← planOwnValues renderer bounds headerStart columns own.entries records
    pure (some fields, records)

/-- The last loop of `Plan::build`: planned records do not overlap. -/
def checkOverlaps : Option ByteRange → List (ℕ × RecordPlan) → Except WriteError Unit
  | _, [] => .ok ()
  | previous, (start, record) :: rest =>
    let current : ByteRange := ⟨start, record.finish⟩
    match previous with
    | some previous =>
      if previous.finish > current.start then .error (.overlappingEdits previous current)
      else checkOverlaps (some current) rest
    | none => checkOverlaps (some current) rest

/-- `Plan::build` (lines 612–697). -/
def Plan.build (edits : EditSet) (renderer : Renderer) (bounds : ByteRange)
    (headerStart : Option ℕ) : Except WriteError Plan := do
  let records ← planReplacements renderer bounds edits.replacements OrderedMap.empty
  let records ← planDeletions bounds edits.deletions records
  let (records, insertedAtEnd) ← planInsertions renderer bounds 0 edits.insertions records []
  let (appended, records) ←
    planAppendedColumns renderer bounds headerStart edits.appendedColumns records
  checkOverlaps none records.entries
  pure ⟨records, insertedAtEnd, appended⟩

/-! ## Writing -/

/-- `terminator_length` (lines 1004–1023). -/
def terminatorLength (bytes : Bytes) (layout : Layout) : ℕ :=
  let size := layout.width.size
  let unitFromEnd (count : ℕ) : Option ℕ :=
    if count * size ≤ bytes.length then layout.width.unitAt bytes (bytes.length - count * size)
    else none
  if bytes.length % size ≠ 0 then 0
  else if unitFromEnd 1 = some lineFeed ∧ unitFromEnd 2 = some carriageReturn then 2 * size
  else if unitFromEnd 1 = some lineFeed ∨ unitFromEnd 1 = some carriageReturn then size
  else 0

/-- The terminator `bytes` ends with. -/
def terminatorOf (layout : Layout) (bytes : Bytes) : Bytes :=
  bytes.drop (bytes.length - terminatorLength bytes layout)

/-- What precedes the terminator `bytes` ends with. -/
def contentOf (layout : Layout) (bytes : Bytes) : Bytes :=
  bytes.take (bytes.length - terminatorLength bytes layout)

/-- A `Write`: the bytes it has taken, and which of its calls it refuses. -/
structure Sink where
  bytes : Bytes
  refuses : ℕ → Bool
  calls : ℕ

/-- The fields of `Output` that change (lines 1055–1066). The
source is shared with the reader. -/
structure Output where
  source : Source
  sink : Sink
  lastBytes : Bytes
  written : ℕ

abbrev OutputM := EStateM WriteError Output

namespace Output

/-- Run a method of the source. -/
def onSource {α : Type} (m : SourceM α) : OutputM α := fun out =>
  match m out.source with
  | .ok a source => .ok a { out with source := source }
  | .error e source => .error (.ofRead e) { out with source := source }

/-- `Output::read` (lines 1410–1422). -/
def read (start finish : ℕ) : OutputM Bytes := do
  let bytes ← onSource (Source.readRange start finish)
  if bytes.length ≠ finish - start then
    throw (.read (.unexpectedReadLength start finish bytes.length))
  pure bytes

section Writing

variable (layout : Layout) (windowSize : ℕ)

/-- `Output::write` (lines 1069–1082). No sink takes `2^64` bytes,
so the count does not saturate. -/
def write (bytes : Bytes) : OutputM Unit := fun out =>
  let sink := { out.sink with calls := out.sink.calls + 1 }
  if out.sink.refuses out.sink.calls || decide (out.sink.bytes.length + bytes.length ≥ 2 ^ 64) then
    .error .sink { out with sink := sink }
  else
    let last := out.lastBytes ++ bytes
    .ok () { out with
      sink := { sink with bytes := out.sink.bytes ++ bytes }
      lastBytes := last.drop (last.length - layout.width.size)
      written := out.written + bytes.length }

/-- `Write::flush`, which can be refused as well. -/
def flush : OutputM Unit := fun out =>
  let sink := { out.sink with calls := out.sink.calls + 1 }
  if out.sink.refuses out.sink.calls then .error .sink { out with sink := sink }
  else .ok () { out with sink := sink }

/-- `Output::ends_with_carriage_return` (lines 1085–1088). -/
def endsWithCarriageReturn (out : Output) : Bool :=
  decide (out.written % layout.width.size = 0) &&
    decide (layout.width.unitAt out.lastBytes 0 = some carriageReturn)

/-- The window loop of `Output::copy`. Every round copies at least one byte. -/
def copyWindows : ℕ → ℕ → ℕ → OutputM Unit
  | 0, _, _ => pure ()
  | fuel + 1, position, finish =>
    if position < finish then do
      let stop := min (position + windowSize) finish
      let bytes ← read position stop
      write layout bytes
      copyWindows fuel stop finish
    else pure ()

/-- The part of `Output::copy` that keeps an empty line apart from the
carriage return now in front of it (lines 1099–1118). -/
def copySeam (range : ByteRange) : OutputM Unit := do
  let out ← get
  if range.start < range.finish ∧ endsWithCarriageReturn layout out = true then
    let firstBytes ← read range.start (min (range.start + layout.width.size) range.finish)
    if layout.width.unitAt firstBytes 0 = some lineFeed then
      match layout.quote with
      | none => throw (.fusedLineBreak range.start)
      | some quote => write layout (layout.width.unitBytes quote ++ layout.width.unitBytes quote)

/-- `Output::copy` (lines 1098–1132). -/
def copy (range : ByteRange) : OutputM Unit := do
  copySeam layout range
  copyWindows layout windowSize (range.finish - range.start) range.start range.finish

/-- `Output::write_inserted` (lines 1136–1154). -/
def writeInserted (terminator fallback : Bytes) : List Bytes → OutputM Unit
  | [] => pure ()
  | record :: rest => do
    write layout record
    write layout (if terminator.isEmpty then fallback else terminator)
    writeInserted terminator fallback rest

/-- The loop of `Output::write_by_range`, with the position reached so far. -/
def writeRanges (fallback : Bytes) : List (ℕ × RecordPlan) → ℕ → OutputM ℕ
  | [], position => pure position
  | (start, record) :: rest, position => do
    copy layout windowSize ⟨position, start⟩
    writeInserted layout record.terminator fallback record.insertedBefore
    match record.action with
    | .keep => writeRanges fallback rest start
    | .replace rendered =>
      write layout rendered
      write layout record.terminator
      writeRanges fallback rest record.finish
    | .delete => writeRanges fallback rest record.finish

/-- `Output::write_by_range` (lines 1158–1190). -/
def writeByRange (records : PlannedRecords) (sourceLength : ℕ) (fallback : Bytes) :
    OutputM Unit := do
  let position ← writeRanges layout windowSize fallback records.entries 0
  copy layout windowSize ⟨position, sourceLength⟩

/-- `Output::write_extended` (lines 1256–1274). -/
def writeExtended (start : ℕ) (bytes fields : Bytes) : OutputM Unit := do
  if endsInsideQuotes bytes layout then
    throw (.unclosedQuote ⟨start, start + bytes.length⟩)
  write layout (contentOf layout bytes)
  write layout fields
  write layout (terminatorOf layout bytes)

/-- What `write_by_record` does with one record of the source
(lines 1204–1243). -/
def visitRecord (appended : AppendedFields) (headerStart : Option ℕ) (fallback : Bytes)
    (start : ℕ) (bytes : Bytes) (records : PlannedRecords) : OutputM PlannedRecords := do
  let inherited := if headerStart = some start then appended.header else appended.default
  match records.get? start with
  | none => do
    writeExtended layout start bytes inherited
    pure records
  | some record => do
    if record.finish ≠ start + bytes.length then
      throw (.notARecord ⟨start, record.finish⟩)
    writeInserted layout (terminatorOf layout bytes) fallback record.insertedBefore
    match record.action with
    | .keep => writeExtended layout start bytes (record.appended.getD inherited)
    | .replace rendered => do
      write layout rendered
      write layout (terminatorOf layout bytes)
    | .delete => pure ()
    pure (records.erase start)

/-- The loop of `PagedReader::visit_raw_records` (`reader.rs`, lines 661–675)
with `visitRecord`. Every record takes at least one byte. -/
def visitRecords (length : ℕ) (appended : AppendedFields) (headerStart : Option ℕ)
    (fallback : Bytes) : ℕ → Cursor → PlannedRecords → OutputM PlannedRecords
  | 0, _, records => pure records
  | fuel + 1, cursor, records => do
    let (found, cursor) ← onSource (nextRecord layout length windowSize cursor)
    match found with
    | none => pure records
    | some recordLength => do
      let bytes := cursor.remaining.take recordLength
      let records ← visitRecord layout appended headerStart fallback cursor.offset bytes records
      visitRecords length appended headerStart fallback fuel (cursor.consume recordLength) records

/-- `Output::write_by_record` (lines 1194–1253). -/
def writeByRecord (reader : PagedReader) (records : PlannedRecords) (appended : AppendedFields)
    (headerStart : Option ℕ) (fallback : Bytes) : OutputM Unit := do
  let left ← visitRecords layout windowSize reader.length appended headerStart fallback
    (reader.length + 1) (Cursor.atOffset reader.byteOrderMarkLength) records
  match left.entries with
  | (start, record) :: _ => throw (.notARecord ⟨start, record.finish⟩)
  | [] => pure ()

/-! ## Checks -/

/-- `Output::check_record_boundaries` (lines 1318–1364). -/
def checkRecordBoundaries (range bounds : ByteRange) : OutputM Bytes := do
  let size := layout.width.size
  if (range.start - bounds.start) % size ≠ 0 then throw (.notARecord range)
  let lead := if range.start = bounds.start then 0 else size
  let readEnd := min (range.finish + size) bounds.finish
  let bytes ← read (range.start - lead) readEnd
  if bytes.length < lead then throw (.notARecord range)
  let before := bytes.take lead
  let record := bytes.drop lead
  let previous := layout.width.unitAt before 0
  let first := layout.width.unitAt record 0
  if lead > 0 ∧ (¬ (previous = some lineFeed ∨ previous = some carriageReturn) ∨
      (previous = some carriageReturn ∧ first = some lineFeed)) then
    throw (.notARecord range)
  match recordLength record layout (decide (readEnd ≥ bounds.finish)) with
  | none => throw (.notARecord range)
  | some length =>
    if length ≠ range.finish - range.start then throw (.notARecord range)
    pure (terminatorOf layout (record.take length))

/-- The loop of `check_before_writing` over the planned records. -/
def checkRecords (bounds : ByteRange) :
    List (ℕ × RecordPlan) → PlannedRecords → OutputM PlannedRecords
  | [], records => pure records
  | (start, record) :: rest, records => do
    let terminator ← checkRecordBoundaries layout ⟨start, record.finish⟩ bounds
    checkRecords bounds rest (records.set start { record with terminator := terminator })

/-- The loop of `check_first_record`: the start of the first record that is
copied, or `none` when the output starts with a rendered record. Every
round goes on to a later start. -/
def firstCopied (records : PlannedRecords) : ℕ → ℕ → Option ℕ
  | 0, position => some position
  | fuel + 1, position =>
    match records.get? position with
    | none => some position
    | some record =>
      if record.insertedBefore.isEmpty then
        match record.action with
        | .delete => firstCopied records fuel record.finish
        | .keep => some position
        | .replace _ => none
      else none

/-- `Output::check_first_record` (lines 1368–1407). -/
def checkFirstRecord (records : PlannedRecords) (bounds : ByteRange) (mark : Bytes) :
    OutputM Unit := do
  if bounds.start ≠ 0 ∨ mark.isEmpty then pure ()
  else
    match firstCopied records (records.entries.length + 1) 0 with
    | none => pure ()
    | some position =>
      if position = 0 ∨ position ≥ bounds.finish then pure ()
      else do
        let bytes ← read position (min (position + mark.length) bounds.finish)
        if bytes = mark then throw (.leadingByteOrderMark position)

/-- `Output::check_before_writing` (lines 1281–1307). -/
def checkBeforeWriting (plan : Plan) (bounds : ByteRange) (mark : Bytes) : OutputM Plan := do
  let endsInsideAUnit := decide ((bounds.finish - bounds.start) % layout.width.size ≠ 0)
  let hasEdits :=
    !plan.records.entries.isEmpty || !plan.insertedAtEnd.isEmpty || plan.appended.isSome
  let finalRecordIsRewritten := plan.finalRecordIs bounds fun action => decide (action ≠ .keep)
  if endsInsideAUnit && hasEdits && !finalRecordIsRewritten then
    throw (.truncatedCodeUnit bounds.finish)
  let records ← checkRecords layout bounds plan.records.entries plan.records
  let plan := { plan with records := records }
  checkFirstRecord plan.records bounds mark
  pure plan

/-- `Output::terminator_of` (lines 1428–1441). -/
def terminatorOfRange (range : ByteRange) : OutputM Bytes := do
  let size := layout.width.size
  if range.start ≥ range.finish ∨ (range.finish - range.start) % size ≠ 0 then pure []
  else
    let tail ← read (max (range.finish - 2 * size) range.start) range.finish
    pure (terminatorOf layout tail)

end Writing

/-- Run a method of the reader on the shared source. -/
def onReader {α : Type} (reader : PagedReader) (m : ReaderM α) : OutputM (α × PagedReader) :=
  fun out =>
    match m { reader with source := out.source } with
    | .ok a r => .ok (a, r) { out with source := r.source }
    | .error e r => .error (.ofRead e) { out with source := r.source }

/-- `first_terminator` (lines 1027–1052). -/
def firstTerminator (layout : Layout) (reader : PagedReader) : OutputM Bytes := do
  let firstRecord ← match reader.header with
    | some header => pure (some header)
    | none => do
      let (page, _) ← onReader reader (PagedReader.readPage 0)
      pure page.records.head?
  let terminator ← match firstRecord with
    | some record => terminatorOfRange layout ⟨record.start, record.finish⟩
    | none => pure []
  pure (if terminator.isEmpty then layout.width.unitBytes lineFeed else terminator)

/-- The part of `write_edited` that writes the records inserted at the end
(lines 476–488). -/
def writeAtEnd (layout : Layout) (bounds : ByteRange) (finalRecordDeleted : Bool)
    (fallback : Bytes) (inserted : List Bytes) : OutputM Unit := do
  if inserted.isEmpty then pure ()
  else do
    let terminator ← terminatorOfRange layout bounds
    if terminator.isEmpty then do
      if bounds.start < bounds.finish ∧ finalRecordDeleted = false then write layout fallback
      writeInserted layout fallback fallback inserted
    else writeInserted layout terminator terminator inserted

end Output

open Output in
/-- The part of `write_edited` (lines 426–491) after the source
was opened. -/
def writeOpened (dialect : Dialect) (edits : EditSet) (windowSize : ℕ) (reader : PagedReader) :
    OutputM Unit := do
  let layout := reader.layout
  let bounds : ByteRange := ⟨reader.byteOrderMarkLength, reader.length⟩
  let headerStart := reader.header.map Record.start
  if edits.sourceLength ≠ bounds.finish then
    throw (.sourceChanged edits.sourceLength bounds.finish)
  let plan ← match Plan.build edits ⟨layout, dialect.encoding⟩ bounds headerStart with
    | .ok plan => pure plan
    | .error e => throw e
  let finalRecordDeleted := plan.finalRecordIs bounds fun action => decide (action = .delete)
  let plan ← checkBeforeWriting layout plan bounds (byteOrderMark dialect.encoding)
  let fallback ←
    if edits.insertions.isEmpty then pure [] else firstTerminator layout reader
  match plan.appended with
  | some appended => do
    copy layout windowSize ⟨0, bounds.start⟩
    writeByRecord layout windowSize reader plan.records appended headerStart fallback
  | none => writeByRange layout windowSize plan.records bounds.finish fallback
  writeAtEnd layout bounds finalRecordDeleted fallback plan.insertedAtEnd
  flush

/-- `write_edited` (lines 408–491). -/
def writeEdited (dialect : Dialect) (edits : EditSet) (windowSize : ℕ) (h : 0 < windowSize) :
    OutputM Unit := do
  let out ← get
  match PagedReader.openReader out.source dialect ⟨1, windowSize, Nat.one_pos, h⟩ with
  | .error e => throw (.ofRead e)
  | .ok reader => do
    set { out with source := reader.source }
    writeOpened dialect edits windowSize reader

end Dbflux.Delimited

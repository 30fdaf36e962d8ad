import Dbflux.Lib.Ensures
import Dbflux.Delimited.Scan

/-!
# The paged reader

`PagedReader` (`dbflux_delimited/src/reader.rs`, lines 457–969) over a
byte source that may fail. The methods run in `EStateM`, so a method that
returns early with an error leaves the fields it had already written, as the
source does.

Offsets and lengths are `u64` in the source. A source is shorter than `2^64`
bytes, so no sum below overflows and `saturating_add(request).min(length)` is
`min`; only the record index of a page can saturate.
-/

namespace Dbflux.Delimited

open Lib

/-! ## Byte sources -/

/-- How a source answers one call. A `short` answer breaks the contract of
`ByteSource`: it returns at most `count` bytes of what was asked. -/
inductive Answer where
  | ok
  | fail (message : String)
  | short (count : ℕ)
  deriving DecidableEq, Repr

/-- A `ByteSource`: its bytes, how it answers its calls, and how many calls it
has had. -/
structure Source where
  content : Bytes
  answers : ℕ → Answer
  calls : ℕ
  length_lt : content.length < 2 ^ 64

abbrev SourceM := EStateM ReadError Source

namespace Source

def next (source : Source) : Source := { source with calls := source.calls + 1 }

/-- `ByteSource::byte_length`. -/
def byteLength : SourceM ℕ := fun source =>
  match source.answers source.calls with
  | .fail message => .error (.source message) source.next
  | .ok | .short _ => .ok source.content.length source.next

/-- `clamp_range` (`dbflux_byte_source/src/lib.rs`, lines 122–127) and
the bytes of the clamped range. -/
def slice (content : Bytes) (start finish : ℕ) : Bytes :=
  let finish := min finish content.length
  let start := min start finish
  (content.drop start).take (finish - start)

/-- `ByteSource::read_range`. -/
def readRange (start finish : ℕ) : SourceM Bytes := fun source =>
  match source.answers source.calls with
  | .fail message => .error (.source message) source.next
  | .ok => .ok (slice source.content start finish) source.next
  | .short count => .ok ((slice source.content start finish).take count) source.next

end Source

/-! ## The cursor -/

/-- `Cursor` (lines 459–468). -/
structure Cursor where
  bufferStart : ℕ
  buffer : Bytes
  consumed : ℕ
  deriving DecidableEq, Repr

namespace Cursor

/-- `Cursor::at`. The default cursor is the one at offset 0. -/
def atOffset (offset : ℕ) : Cursor := ⟨offset, [], 0⟩

def offset (cursor : Cursor) : ℕ := cursor.bufferStart + cursor.consumed

def bufferEnd (cursor : Cursor) : ℕ := cursor.bufferStart + cursor.buffer.length

def remaining (cursor : Cursor) : Bytes := cursor.buffer.drop cursor.consumed

def consume (cursor : Cursor) (length : ℕ) : Cursor :=
  { cursor with consumed := min (cursor.consumed + length) cursor.buffer.length }

def append (cursor : Cursor) (bytes : Bytes) : Cursor :=
  { bufferStart := cursor.offset
    buffer := cursor.buffer.drop cursor.consumed ++ bytes
    consumed := 0 }

end Cursor

/-- `PagedReader::extend` (lines 938–955) on a source taken to be
`length` bytes long. -/
def extend (length : ℕ) (cursor : Cursor) (request : ℕ) : SourceM Cursor := do
  let start := cursor.bufferEnd
  let finish := min (start + request) length
  let bytes ← Source.readRange start finish
  if bytes.length ≠ finish - start then
    throw (.unexpectedReadLength start finish bytes.length)
  pure (cursor.append bytes)

/-- The loop of `PagedReader::next_record`. Every round fetches at least one
byte, so `fuel` past the number of bytes left is never used up. -/
def nextRecordLoop (layout : Layout) (length : ℕ) :
    ℕ → ℕ → Cursor → SourceM (Option ℕ × Cursor)
  | 0, _, cursor => pure (none, cursor)
  | fuel + 1, request, cursor =>
    let atEndOfSource := decide (cursor.bufferEnd ≥ length)
    let found := recordLength cursor.remaining layout atEndOfSource
    if found.isSome || atEndOfSource then pure (found, cursor)
    else do
      let cursor ← extend length cursor request
      nextRecordLoop layout length fuel (request * 2) cursor

/-- `PagedReader::next_record` (lines 920–935): the length of the
record at the cursor, and the cursor with the bytes fetched for it. -/
def nextRecord (layout : Layout) (length windowSize : ℕ) (cursor : Cursor) :
    SourceM (Option ℕ × Cursor) :=
  nextRecordLoop layout length (length - cursor.bufferEnd + 1) windowSize cursor

/-! ## Records and pages -/

/-- `Record` (lines 70–84). -/
structure Record where
  start : ℕ
  finish : ℕ
  fields : List Text
  hadReplacements : Bool
  deriving DecidableEq, Repr

/-- `Page` (lines 88–96). -/
structure Page where
  firstRecord : ℕ
  records : List Record
  deriving DecidableEq, Repr

/-- `RecordCount` (lines 100–107). -/
inductive RecordCount where
  | total (count : ℕ)
  | indexedSoFar (count : ℕ)
  deriving DecidableEq, Repr

/-- `ReaderOptions` (lines 19–28); both sizes are non-zero. -/
structure ReaderOptions where
  pageSize : ℕ
  windowSize : ℕ
  pageSize_pos : 0 < pageSize
  windowSize_pos : 0 < windowSize

/-- `KeptBytes` (lines 510–517). -/
structure KeptBytes where
  budget : ℕ
  bytes : Bytes
  full : Bool
  deriving DecidableEq, Repr

/-- `KeptBytes::offer` (lines 521–528). -/
def KeptBytes.offer (kept : KeptBytes) (record : Bytes) : KeptBytes :=
  if kept.full || decide (kept.bytes.length + record.length > kept.budget) then
    { kept with full := true }
  else { kept with bytes := kept.bytes ++ record }

/-- `PagedReader` (lines 542–569). -/
structure PagedReader where
  source : Source
  dialect : Dialect
  layout : Layout
  options : ReaderOptions
  length : ℕ
  byteOrderMarkLength : ℕ
  header : Option Record
  headerBytes : Option Bytes
  pageStarts : List ℕ
  indexedRecords : ℕ
  totalRecords : Option ℕ
  cursor : Cursor

abbrev ReaderM := EStateM ReadError PagedReader

/-- `u64::MAX`. -/
def u64Max : ℕ := 2 ^ 64 - 1

/-- Record `bytes` as read at offset `start`. -/
def recordAt (layout : Layout) (encoding : Encoding) (start : ℕ) (bytes : Bytes) : Record :=
  let decoded := decodeFields bytes layout encoding
  ⟨start, start + bytes.length, decoded.1, decoded.2⟩

namespace PagedReader

/-- Run a method of the source. -/
def onSource {α : Type} (m : SourceM α) : ReaderM α :=
  zoom (·.source) (fun r source => { r with source := source }) m

/-- `PagedReader::next_record` with the reader's own layout, length and
window. -/
def nextRecordAt (cursor : Cursor) : ReaderM (Option ℕ × Cursor) := do
  let r ← get
  onSource (nextRecord r.layout r.length r.options.windowSize cursor)

/-- `PagedReader::build_record` (lines 958–969). -/
def buildRecord (r : PagedReader) (cursor : Cursor) (length : ℕ) : Record :=
  recordAt r.layout r.dialect.encoding cursor.offset (cursor.remaining.take length)

/-- `PagedReader::first_record_of`. -/
def firstRecordOf (r : PagedReader) (page : ℕ) : ℕ := min (page * r.options.pageSize) u64Max

/-- `PagedReader::record_count`. -/
def recordCount (r : PagedReader) : RecordCount :=
  match r.totalRecords with
  | some total => .total total
  | none => .indexedSoFar r.indexedRecords

/-! ## Opening -/

/-- The loop of `prepare` that fetches enough bytes to see a byte-order mark. -/
def fetchMark (length windowSize markLength : ℕ) : ℕ → Cursor → SourceM Cursor
  | 0, cursor => pure cursor
  | fuel + 1, cursor =>
    if cursor.remaining.length < markLength ∧ cursor.bufferEnd < length then do
      let cursor ← extend length cursor windowSize
      fetchMark length windowSize markLength fuel cursor
    else pure cursor

/-- The part of `prepare` that reads the header (lines 850–862):
with `has_header` the record at the cursor becomes the header. -/
def readHeader (cursor : Cursor) : ReaderM Cursor := do
  let r ← get
  if r.dialect.hasHeader then do
    let (found, cursor) ← nextRecordAt cursor
    match found with
    | none => pure cursor
    | some length =>
      modify fun r =>
        { r with
          header := some (r.buildRecord cursor length)
          headerBytes := some (cursor.remaining.take length) }
      pure (cursor.consume length)
  else pure cursor

/-- `PagedReader::prepare` (lines 832–872). -/
def prepare : ReaderM Unit := do
  let length ← onSource Source.byteLength
  modify fun r => { r with length := length }
  let r ← get
  let mark := byteOrderMark r.dialect.encoding
  let cursor ←
    onSource (fetchMark length r.options.windowSize mark.length (length + 1) (Cursor.atOffset 0))
  let cursor :=
    if !mark.isEmpty && mark.isPrefixOf cursor.remaining then cursor.consume mark.length else cursor
  modify fun r =>
    { r with byteOrderMarkLength := cursor.offset, header := none, headerBytes := none }
  let cursor ← readHeader cursor
  modify fun r =>
    { r with
      pageStarts := [cursor.offset]
      indexedRecords := 0
      totalRecords := if cursor.offset ≥ r.length then some 0 else none
      cursor := cursor }

/-- `PagedReader::open` (lines 593–614). -/
def openReader (source : Source) (dialect : Dialect) (options : ReaderOptions) :
    Except ReadError PagedReader :=
  match Layout.forDialect dialect with
  | .error e => .error e
  | .ok layout =>
    let unread : PagedReader :=
      { source := source, dialect := dialect, layout := layout, options := options
        length := 0, byteOrderMarkLength := 0, header := none, headerBytes := none
        pageStarts := [0], indexedRecords := 0, totalRecords := none, cursor := Cursor.atOffset 0 }
    match prepare unread with
    | .ok _ r => .ok r
    | .error e _ => .error e

/-! ## Reading pages -/

/-- What the loop of `scan_page` has read. -/
structure PageScan where
  records : List Record
  kept : Option KeptBytes
  scanned : ℕ
  cursor : Cursor

/-- The `for _ in 0..page_size` loop of `scan_page`. -/
def scanRecords : ℕ → PageScan → ReaderM PageScan
  | 0, scan => pure scan
  | count + 1, scan => do
    let r ← get
    let (found, cursor) ← nextRecordAt scan.cursor
    match found with
    | none => pure { scan with cursor := cursor }
    | some length =>
      scanRecords count
        { records := match scan.kept with
            | some _ => scan.records ++ [r.buildRecord cursor length]
            | none => scan.records
          kept := scan.kept.map (·.offer (cursor.remaining.take length))
          scanned := scan.scanned + 1
          cursor := cursor.consume length }

/-- `PagedReader::scan_page` (lines 882–915). -/
def scanPage (page : ℕ) (cursor : Cursor) (kept : Option KeptBytes) : ReaderM PageScan := do
  let r ← get
  let scan ← scanRecords r.options.pageSize ⟨[], kept, 0, cursor⟩
  let recordsThroughPage := min (r.firstRecordOf page + scan.scanned) u64Max
  modify fun r => { r with indexedRecords := max r.indexedRecords recordsThroughPage }
  let r ← get
  if scan.cursor.offset ≥ r.length then
    modify fun r => { r with totalRecords := some recordsThroughPage }
  else if r.pageStarts.length = page + 1 then
    modify fun r => { r with pageStarts := r.pageStarts ++ [scan.cursor.offset] }
  pure scan

/-- The `for skipped in nearest..page` loop of `read_page_keeping`. -/
def skipPages : ℕ → ℕ → Cursor → ReaderM Cursor
  | 0, _, cursor => pure cursor
  | count + 1, skipped, cursor => do
    let r ← get
    if r.pageStarts.length ≤ skipped then pure cursor
    else do
      let scan ← scanPage skipped cursor none
      skipPages count (skipped + 1) scan.cursor

/-- `PagedReader::read_page_keeping` (lines 716–771). -/
def readPageKeeping (page budget : ℕ) : ReaderM (Page × Bytes) := do
  let r ← get
  let firstRecord := r.firstRecordOf page
  if page ≥ r.pageStarts.length ∧ r.totalRecords.isSome then
    pure (⟨firstRecord, []⟩, [])
  else do
    let nearest := min (r.pageStarts.length - 1) page
    let start := (r.pageStarts[nearest]?).getD 0
    let taken := r.cursor
    modify fun r => { r with cursor := Cursor.atOffset 0 }
    let cursor := if taken.offset ≠ start then Cursor.atOffset start else taken
    let cursor ← skipPages (page - nearest) nearest cursor
    let r ← get
    let kept : KeptBytes := ⟨budget, [], decide (budget = 0)⟩
    if page < r.pageStarts.length then do
      let scan ← scanPage page cursor (some kept)
      modify fun r => { r with cursor := scan.cursor }
      pure (⟨firstRecord, scan.records⟩, (scan.kept.map (·.bytes)).getD [])
    else do
      modify fun r => { r with cursor := cursor }
      pure (⟨firstRecord, []⟩, kept.bytes)

/-- `PagedReader::read_page`. -/
def readPage (page : ℕ) : ReaderM Page := do
  let result ← readPageKeeping page 0
  pure result.1

/-- `PagedReader::read_page_with_bytes`. -/
def readPageWithBytes (page budget : ℕ) : ReaderM (Page × Bytes) := readPageKeeping page budget

/-! ## Invalidating -/

/-- `PagedReader::invalidate_from_offset` (lines 786–807). -/
def invalidateFromOffset (offset : ℕ) : ReaderM Unit := do
  let r ← get
  let dataStart := r.pageStarts.head?.getD 0
  if offset = 0 ∨ offset < dataStart then prepare
  else do
    let length ← onSource Source.byteLength
    modify fun r => { r with length := length }
    if dataStart ≥ length then prepare
    else
      modify fun r =>
        -- the starts are sorted, so `partition_point` counts a leading run
        let kept := r.pageStarts.takeWhile fun start => decide (start ≤ offset)
        { r with
          pageStarts := kept
          indexedRecords := r.firstRecordOf (kept.length - 1)
          totalRecords := none
          cursor := Cursor.atOffset 0 }

end PagedReader

end Dbflux.Delimited

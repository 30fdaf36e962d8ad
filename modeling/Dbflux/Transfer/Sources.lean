import Dbflux.Transfer.Pipeline

/-!
# Tables and files as sources

`TableSource` (`table_source.rs`) reads a table page by page: behind the last
key it has seen if the table has one primary key column, at an offset otherwise.
`FileSource` (`file_source.rs`) reads the records of an exported file. Both
deliver the rows of the table or file in segments.

Results:
* `tableSource_delivers`, `fileSource_delivers`.
* `completed_copies_all_iff`: a completed transfer from a table or a file has
  handed over every row exactly if the token was not set within a turn.
* `set_within_second_turn`: a completed transfer of one row out of two.
* `chunks_cover_iff`: the pages of a table are its rows, exactly if it has one key
  column or no offset wraps around.
* `offset_wraps_around`: a table whose pages never end.
-/

namespace Dbflux.Transfer

open Lib List

/-! ## Tables (`table_source.rs`) -/

/-- `TransferColumn` (`dbflux_core`). -/
structure TransferColumn where
  name : Text
  typeName : Option Text
  nullable : Bool
  isPrimaryKey : Bool
  deriving DecidableEq, Repr

/-- Where a page starts: behind a value of the key column, or at an offset in the
order of all columns. -/
inductive PageStart (V : Type) where
  | after (key : Text) (last : Option V)
  | offset (offset : ℕ)

/-- What the `SELECT` of `build_sql` (lines 68–113) asks for. -/
structure PageRequest (V : Type) where
  schema : Option Text
  table : Text
  columns : List Text
  start : PageStart V
  limit : ℕ

/-- The queries of a connection: rows or an error. -/
abbrev Connection (V : Type) := PageRequest V → Except Text (List (List V))

/-- `single_primary_key_column` (lines 136–145). -/
def singlePrimaryKeyColumn (columns : List TransferColumn) : Option Text :=
  match columns.filter (·.isPrimaryKey) with
  | [column] => some column.name
  | _ => none

/-- `TableSource` (lines 21–32). -/
structure TableSource (V : Type) where
  connection : Connection V
  schema : Option Text
  table : Text
  columns : List TransferColumn
  segmentSize : ℕ
  estimatedTotal : Option ℕ
  keysetPk : Option Text
  lastKeyValue : Option V
  offset : ℕ
  exhausted : Bool

variable {V : Type}

/-- `TableSource::new` (lines 41–66); the total is known or
counted already. -/
def TableSource.new (connection : Connection V) (schema : Option Text) (table : Text)
    (columns : List TransferColumn) (segmentSize : ℕ) (estimatedTotal : Option ℕ) :
    TableSource V where
  connection := connection
  schema := schema
  table := table
  columns := columns
  segmentSize := max segmentSize 1
  estimatedTotal := estimatedTotal
  keysetPk := singlePrimaryKeyColumn columns
  lastKeyValue := none
  offset := 0
  exhausted := false

/-- `pk_index` (line 175). -/
def columnIndex (columns : List TransferColumn) (name : Text) : Option ℕ :=
  columns.findIdx? (·.name = name)

/-- The request of `build_sql` (lines 68–113). -/
def TableSource.request (source : TableSource V) : PageRequest V where
  schema := source.schema
  table := source.table
  columns := source.columns.map (·.name)
  start := match source.keysetPk with
    | some key => .after key source.lastKeyValue
    | none => .offset source.offset
  limit := source.segmentSize

/-- The source behind a page of rows (lines 168–185). The
offset is a `u32`. -/
def TableSource.behind (source : TableSource V) (rows : List (List V)) : TableSource V :=
  let source := { source with exhausted := rows.length < source.segmentSize }
  match source.keysetPk with
  | some key =>
    match columnIndex source.columns key, rows.getLast? with
    | some index, some row => { source with lastKeyValue := row[index]? }
    | _, _ => source
  | none => { source with offset := (source.offset + rows.length) % 2 ^ 32 }

/-- `TableSource` as a `RowSource` (lines 147–193). -/
def tableSource : RowSource (List V) (TableSource V) where
  nextChunk := fun source token =>
    if source.exhausted then (.ok none, source, token)
    else if token.isCancelled then (.ok none, source, token.read)
    else
      match source.connection source.request with
      | .error e => (.error (.source e), source, token.read)
      | .ok [] => (.ok none, { source with exhausted := true }, token.read)
      | .ok rows => (.ok (some rows), source.behind rows, token.read)
  estimatedTotal := (·.estimatedTotal)

/-! ## Files (`file_source.rs`) -/

/-- `FileSource` (lines 32–37): the records that are left,
decoded to rows or the errors of reading them. -/
structure FileSource (R : Type) where
  records : List (Except Text R)
  segmentSize : ℕ
  estimatedTotal : Option ℕ

/-- `FileSource::open` (lines 40–70) of a file with these
records. -/
def FileSource.ofRecords {R : Type} (records : List (Except Text R)) (segmentSize : ℕ)
    (estimatedTotal : Option ℕ) : FileSource R :=
  ⟨records, max segmentSize 1, estimatedTotal⟩

/-- `read_csv_chunk` and `read_json_chunk` (lines 73–115): up to
`n` records, or the error of the first one that cannot be read. -/
def readChunk {R : Type} : ℕ → List (Except Text R) → Except Text (List R × List (Except Text R))
  | 0, records => .ok ([], records)
  | _ + 1, [] => .ok ([], [])
  | _ + 1, .error e :: _ => .error e
  | n + 1, .ok row :: records =>
    match readChunk n records with
    | .error e => .error e
    | .ok (rows, rest) => .ok (row :: rows, rest)

/-- `FileSource` as a `RowSource` (lines 132–159). -/
def fileSource {R : Type} : RowSource R (FileSource R) where
  nextChunk := fun source token =>
    if token.isCancelled then (.ok none, source, token.read)
    else
      match readChunk source.segmentSize source.records with
      | .error e => (.error (.source e), source, token.read)
      | .ok ([], rest) => (.ok none, { source with records := rest }, token.read)
      | .ok (rows, rest) => (.ok (some rows), { source with records := rest }, token.read)
  estimatedTotal := (·.estimatedTotal)

/-! ## A file delivers its rows -/

/-- The records that are left are those of these rows, as far as they can be
read. -/
def FileSource.Holds {R : Type} (segmentSize : ℕ) (source : FileSource R) (rest : List R) : Prop :=
  source.segmentSize = segmentSize ∧
    List.Forall₂ (fun record row => ∀ r, record = .ok r → r = row) source.records rest

theorem readChunk_spec {R : Type} {n : ℕ} {records left : List (Except Text R)} {rest rows : List R}
    (h : readChunk n records = .ok (rows, left))
    (hrecords : List.Forall₂ (fun record row => ∀ r, record = .ok r → r = row) records rest) :
    rows = rest.take n ∧
      List.Forall₂ (fun record row => ∀ r, record = .ok r → r = row) left (rest.drop n) := by
  induction n generalizing records rest rows with
  | zero =>
    obtain ⟨rfl, rfl⟩ := h
    exact ⟨rfl, hrecords⟩
  | succ n ih =>
    cases hrecords with
    | nil =>
      obtain ⟨rfl, rfl⟩ := h
      exact ⟨rfl, .nil⟩
    | @cons record row records rest hrow hrest =>
      cases record with
      | error e => cases h
      | ok r =>
        obtain rfl := hrow r rfl
        simp only [readChunk] at h
        split at h
        next => cases h
        next rows' left' hread =>
          obtain ⟨rfl, rfl⟩ := h
          obtain ⟨rfl, hleft⟩ := ih hread hrest
          exact ⟨rfl, hleft⟩

variable {segmentSize : ℕ}

/-- A file delivers its rows in segments. -/
theorem fileSource_delivers {R : Type} (hsegment : 0 < segmentSize) :
    Delivers fileSource segmentSize (FileSource.Holds (R := R) segmentSize) where
  exhausted := by
    rintro ⟨records, size, total⟩ token ⟨-, hrecords⟩
    cases hrecords
    by_cases hcancelled : token.isCancelled
    · exact ⟨_, _, .inl (if_pos hcancelled)⟩
    · refine ⟨⟨[], size, total⟩, token.read, .inl ?_⟩
      cases size <;> simp [fileSource, readChunk]
  cancelled := by
    intro s rest token _ _ hcancelled
    exact if_pos hcancelled
  segment := by
    rintro s rest token ⟨hsize, hrecords⟩ hrest hcancelled
    simp only [fileSource, hcancelled, Bool.false_eq_true, if_false]
    cases hread : readChunk s.segmentSize s.records with
    | error e => exact .inl ⟨_, _, rfl⟩
    | ok read =>
      obtain ⟨rows, left⟩ := read
      obtain ⟨hrows, hleft⟩ := readChunk_spec hread hrecords
      rw [hsize] at hrows hleft
      cases rows with
      | nil => exact absurd hrows.symm (by simp [hrest, hsegment.ne'])
      | cons row rows => exact .inr ⟨{ s with records := left }, by rw [← hrows], hsize, hleft⟩

/-! ## A table delivers its rows -/

section

variable [Preorder V] [DecidableLT V]

/-- The value of the key column in a row. -/
def keyValue (columns : List TransferColumn) (key : Text) (row : List V) : Option V :=
  (columnIndex columns key).bind (row[·]?)

/-- The rows behind a key value. -/
def isBehind (columns : List TransferColumn) (key : Text) (last : Option V) (row : List V) : Bool :=
  last.all fun k => (keyValue columns key row).any (k < ·)

/-- The connection answers the pages of a table that has these rows, or fails. A
key column has strictly increasing values. -/
def Serves (connection : Connection V) (schema : Option Text) (table : Text)
    (columns : List TransferColumn) (rows : List (List V)) : Prop :=
  match singlePrimaryKeyColumn columns with
  | some key =>
    (∀ row ∈ rows, (keyValue columns key row).isSome) ∧
    rows.Pairwise (fun a b => ∀ k ∈ keyValue columns key a, ∀ l ∈ keyValue columns key b, k < l) ∧
    ∀ last limit page,
      connection ⟨schema, table, columns.map (·.name), .after key last, limit⟩ = .ok page →
        page = (rows.filter (isBehind columns key last)).take limit
  | none =>
    ∀ offset limit page,
      connection ⟨schema, table, columns.map (·.name), .offset offset, limit⟩ = .ok page →
        page = (rows.drop offset).take limit

/-- The table is not paged by offsets, or the last offset that is asked for fits into
a `u32`. -/
def OffsetsFit (columns : List TransferColumn) (segmentSize : ℕ) (rows : List (List V)) : Prop :=
  (singlePrimaryKeyColumn columns).isSome ∨ rows.length / segmentSize * segmentSize < 2 ^ 32

variable {rest : List (List V)} {columns : List TransferColumn}

/-- The rows behind the last one that was read are those that are left. -/
theorem filter_isBehind {key : Text} {read : List (List V)}
    (hkeys : ∀ row ∈ read ++ rest, (keyValue columns key row).isSome)
    (hsorted : (read ++ rest).Pairwise
      (fun a b => ∀ k ∈ keyValue columns key a, ∀ l ∈ keyValue columns key b, k < l)) :
    (read ++ rest).filter (isBehind columns key (read.getLast?.bind (keyValue columns key))) =
      rest := by
  rcases eq_nil_or_concat' read with rfl | ⟨init, last, rfl⟩
  · simp [isBehind]
  · obtain ⟨k, hk⟩ := Option.isSome_iff_exists.mp (hkeys last (by simp))
    have hlast : (init ++ [last]).getLast?.bind (keyValue columns key) = some k := by simp [hk]
    obtain ⟨hread, -, hacross⟩ := pairwise_append.mp hsorted
    have hbehind : ∀ row, isBehind columns key (some k) row ↔
        ∃ l, keyValue columns key row = some l ∧ k < l := by
      simp [isBehind, Option.any_eq_true]
    have hnone : (init ++ [last]).filter (isBehind columns key (some k)) = [] := by
      rw [filter_eq_nil_iff]
      intro row hrow hafter
      obtain ⟨l, hl, hkl⟩ := (hbehind row).mp hafter
      rcases mem_append.mp hrow with hinit | hrow
      · -- A row in front of the last one has a smaller key.
        have hlk := (pairwise_append.mp hread).2.2 row hinit last (by simp) l hl k hk
        exact absurd hkl hlk.not_gt
      · obtain rfl := mem_singleton.mp hrow
        rw [hk] at hl
        exact absurd (Option.some.inj hl ▸ hkl) (lt_irrefl k)
    have hall : rest.filter (isBehind columns key (some k)) = rest := by
      rw [filter_eq_self]
      intro row hrow
      obtain ⟨l, hl⟩ := Option.isSome_iff_exists.mp (hkeys row (by simp [hrow]))
      exact (hbehind row).mpr ⟨l, hl, hacross last (by simp) row hrow k hk l hl⟩
    rw [hlast, filter_append, hnone, hall, nil_append]

/-- The source has read the rows of a table up to those that are left. The offset of
an exhausted source is not looked at any more. -/
structure TableSource.Holds (rows : List (List V)) (segmentSize : ℕ) (source : TableSource V)
    (rest : List (List V)) : Prop where
  serves : Serves source.connection source.schema source.table source.columns rows
  fits : OffsetsFit source.columns segmentSize rows
  keyset : source.keysetPk = singlePrimaryKeyColumn source.columns
  size : source.segmentSize = segmentSize
  exhausted : source.exhausted → rest = []
  position : ∃ read, rows = read ++ rest ∧
    match source.keysetPk with
    | some key => source.lastKeyValue = read.getLast?.bind (keyValue source.columns key)
    | none => source.exhausted ∨ source.offset = read.length ∧ segmentSize ∣ read.length

variable {rows : List (List V)}

/-- A page of the table is the next segment. -/
theorem page_eq_take {page : List (List V)} {source : TableSource V}
    (hsource : source.Holds rows segmentSize rest) (hexhausted : ¬ source.exhausted)
    (hpage : source.connection source.request = .ok page) : page = rest.take segmentSize := by
  obtain ⟨read, rfl, hposition⟩ := hsource.position
  have hserves := hsource.serves
  have hsize := hsource.size
  unfold Serves at hserves
  rw [← hsource.keyset] at hserves
  unfold TableSource.request at hpage
  cases hkey : source.keysetPk with simp only [hkey] at hserves hposition hpage
  | some key =>
    obtain ⟨hkeys, hsorted, hanswers⟩ := hserves
    rw [hanswers _ _ _ hpage, hposition, filter_isBehind hkeys hsorted, hsize]
  | none =>
    rw [hserves _ _ _ hpage, (hposition.resolve_left hexhausted).1, drop_left, hsize]

/-- Behind a page the source has the rest left. -/
theorem holds_behind {source : TableSource V} (hsource : source.Holds rows segmentSize rest)
    (hexhausted : ¬ source.exhausted) (hrest : rest ≠ []) (hsegment : 0 < segmentSize) :
    (source.behind (rest.take segmentSize)).Holds rows segmentSize (rest.drop segmentSize) := by
  obtain ⟨hserves, hfits, hkeyset, hsize, -, read, rfl, hposition⟩ := hsource
  have hshort : (rest.take segmentSize).length < segmentSize → rest.drop segmentSize = [] := by
    intro hlength
    rw [length_take] at hlength
    exact drop_eq_nil_of_le (by omega)
  have hread : read ++ rest = (read ++ rest.take segmentSize) ++ rest.drop segmentSize := by
    rw [append_assoc, take_append_drop]
  have hserved := hserves
  unfold Serves at hserved
  rw [← hkeyset] at hserved
  unfold TableSource.behind
  cases hkey : source.keysetPk with
  | some key =>
    rw [hkey] at hserved
    obtain ⟨hkeys, -, -⟩ := hserved
    -- The page has a last row, and the row has a key.
    obtain ⟨row, hrow⟩ : ∃ row, (rest.take segmentSize).getLast? = some row := by
      rw [← Option.isSome_iff_exists, getLast?_isSome]
      simp [hrest, hsegment.ne']
    have hmem : row ∈ read ++ rest :=
      mem_append_right read (mem_of_mem_take (mem_of_getLast? hrow))
    obtain ⟨k, hk⟩ := Option.isSome_iff_exists.mp (hkeys row hmem)
    obtain ⟨index, hindex, hk⟩ := Option.bind_eq_some_iff.mp hk
    simp only [hindex, hrow]
    refine ⟨hserves, hfits, hkey ▸ hkeyset, hsize, by simpa [hsize] using hshort, _, hread, ?_⟩
    simp [getLast?_append, hrow, keyValue, hindex]
  | none =>
    rw [hkey] at hposition hkeyset
    obtain ⟨hoffset, pages, hpages⟩ := hposition.resolve_left hexhausted
    have hbound : (read ++ rest).length / segmentSize * segmentSize < 2 ^ 32 :=
      hfits.resolve_left (by simp [← hkeyset])
    dsimp only
    refine ⟨hserves, hfits, hkeyset, hsize, by simpa [hsize] using hshort, _, hread, ?_⟩
    by_cases hfull : rest.length < segmentSize
    · exact .inl (by simpa [hsize] using hfull)
    -- Behind a full page the offset is a multiple of the segment size within the rows.
    have htake : (rest.take segmentSize).length = segmentSize := by
      rw [length_take, min_eq_left (not_lt.mp hfull)]
    have hread' : (pages + 1) * segmentSize ≤ (read ++ rest).length := by
      rw [length_append, hpages, Nat.add_one_mul, Nat.mul_comm]
      omega
    have hlength : source.offset + segmentSize < 2 ^ 32 := by
      refine lt_of_eq_of_lt ?_ ((Nat.mul_le_mul_right _
        ((Nat.le_div_iff_mul_le hsegment).mpr hread')).trans_lt hbound)
      rw [hoffset, hpages, Nat.add_one_mul, Nat.mul_comm]
    refine .inr ⟨?_, pages + 1, ?_⟩
    · rw [htake, Nat.mod_eq_of_lt hlength, length_append, hoffset, htake]
    · rw [length_append, htake, hpages, Nat.mul_add_one]

/-- A table delivers its rows in segments. -/
theorem tableSource_delivers (hsegment : 0 < segmentSize) :
    Delivers tableSource segmentSize (TableSource.Holds rows segmentSize) where
  exhausted := by
    intro s token hs
    by_cases hexhausted : s.exhausted
    · exact ⟨_, _, .inl (if_pos hexhausted)⟩
    by_cases hcancelled : token.isCancelled
    · exact ⟨_, _, .inl ((if_neg hexhausted).trans (if_pos hcancelled))⟩
    simp only [tableSource, hexhausted, hcancelled, Bool.false_eq_true, if_false]
    cases hpage : s.connection s.request with
    | error e => exact ⟨_, _, .inr ⟨_, rfl⟩⟩
    | ok page =>
      obtain rfl : page = [] := by simpa using page_eq_take hs hexhausted hpage
      exact ⟨_, _, .inl rfl⟩
  cancelled := by
    intro s rest token hs hrest hcancelled
    have hexhausted : ¬ s.exhausted := fun h => hrest (hs.exhausted h)
    exact (if_neg hexhausted).trans (if_pos hcancelled)
  segment := by
    intro s rest token hs hrest hcancelled
    have hexhausted : ¬ s.exhausted := fun h => hrest (hs.exhausted h)
    simp only [tableSource, hexhausted, hcancelled, Bool.false_eq_true, if_false]
    cases hpage : s.connection s.request with
    | error e => exact .inl ⟨_, _, rfl⟩
    | ok page =>
      obtain rfl := page_eq_take hs hexhausted hpage
      have hholds := holds_behind hs hexhausted hrest hsegment
      refine .inr ⟨_, ?_, hholds⟩
      cases htake : rest.take segmentSize with
      | nil => exact absurd htake (by simp [hrest, hsegment.ne'])
      | cons row rows => rfl

/-- A new source has every row left. -/
theorem holds_new {connection : Connection V} {schema : Option Text} {table : Text}
    (segmentSize : ℕ) (estimatedTotal : Option ℕ)
    (hserves : Serves connection schema table columns rows)
    (hfits : OffsetsFit columns (max segmentSize 1) rows) :
    (TableSource.new connection schema table columns segmentSize estimatedTotal).Holds rows
      (max segmentSize 1) rows where
  serves := hserves
  fits := hfits
  keyset := rfl
  size := rfl
  exhausted := by simp [TableSource.new]
  position := by
    refine ⟨[], rfl, ?_⟩
    unfold TableSource.new
    split
    · rfl
    · exact .inr ⟨rfl, dvd_zero _⟩

/-! ## Transfers from tables and files -/

/-- **Completed transfers.** For every column map, sink and moment at which the
token is set: a transfer from a table or a file ends, and if it reports
`Completed` it has handed over every row exactly if the token was not set
between the pipeline's read and the source's read of one turn, with rows left. A
transfer that stops at the pipeline's own read reports `Cancelled`. -/
theorem completed_copies_all_iff {R' τ : Type} (map : ColumnMap (List V) R') (K : RowSink R' τ)
    (sink : τ) (token : CancelToken) (segmentSize : ℕ) (total : Option ℕ)
    (rows : List (List V)) (fuel : ℕ) (hfuel : rows.length < fuel) :
    (∀ connection schema table columns, Serves connection schema table columns rows →
      OffsetsFit columns (max segmentSize 1) rows →
      ∃ run, runTransfer tableSource map K fuel
          (TableSource.new connection schema table columns segmentSize total) sink token =
            some run ∧
        ∀ report, run.result = .ok report →
          (report.outcome = .completed → (run.chunks.flatten = rows.map map.project ↔
            ¬ SetWithinTurn token.moment token.reads (max segmentSize 1) rows)) ∧
          (SetAtCheck token.moment token.reads (max segmentSize 1) rows →
            report.outcome = .cancelled)) ∧
    (∀ records, List.Forall₂ (fun record row => ∀ r, record = .ok r → r = row) records rows →
      ∃ run, runTransfer fileSource map K fuel
          (FileSource.ofRecords records segmentSize total) sink token = some run ∧
        ∀ report, run.result = .ok report →
          (report.outcome = .completed → (run.chunks.flatten = rows.map map.project ↔
            ¬ SetWithinTurn token.moment token.reads (max segmentSize 1) rows)) ∧
          (SetAtCheck token.moment token.reads (max segmentSize 1) rows →
            report.outcome = .cancelled)) := by
  have hsegment : 0 < max segmentSize 1 := by omega
  constructor
  · intro connection schema table columns hserves hfits
    exact completed_iff_of_delivers (tableSource_delivers hsegment) hsegment
      (holds_new segmentSize total hserves hfits) sink token hfuel
  · intro records hrecords
    exact completed_iff_of_delivers (fileSource_delivers hsegment) hsegment ⟨rfl, hrecords⟩ sink
      token hfuel

/-- A connection to a table with these rows that never fails. -/
def Connection.ofRows (columns : List TransferColumn) (rows : List (List V)) : Connection V :=
  fun request =>
    match request.start with
    | .after key last => .ok ((rows.filter (isBehind columns key last)).take request.limit)
    | .offset offset => .ok ((rows.drop offset).take request.limit)

end

/-- A sink that accepts every row and finishes with its count. -/
def countingSink {R : Type} : RowSink R ℕ where
  begin := fun count => (.ok (), count)
  writeChunk := fun count rows => (.ok rows.length, count + rows.length)
  finish := fun count => (.ok ⟨count, .completed, []⟩, count)

/-- A table of one key column with two rows, read row by row. -/
def twoRows : TableSource ℕ :=
  .new (.ofRows [⟨['k'], none, false, true⟩] [[1], [2]]) none ['t'] [⟨['k'], none, false, true⟩] 1 none

theorem serves_twoRows :
    Serves twoRows.connection none ['t'] [⟨['k'], none, false, true⟩] [[1], [2]] := by
  refine ⟨by decide, by decide, ?_⟩
  rintro last limit page hpage
  exact (Except.ok.inj hpage).symm

/-- Two rows and a token that is never set: both are handed over. -/
theorem two_rows_completed :
    Serves twoRows.connection none ['t'] [⟨['k'], none, false, true⟩] [[1], [2]] ∧
    ∃ run, runTransfer tableSource ⟨id, []⟩ countingSink 3 twoRows 0 ⟨none, 0⟩ = some run ∧
      ∀ report, run.result = .ok report →
        (report.outcome = .completed →
          (run.chunks.flatten = [[1], [2]] ↔ ¬ SetWithinTurn none 0 1 [[1], [2]])) ∧
        (SetAtCheck none 0 1 [[1], [2]] → report.outcome = .cancelled) := by
  have hserves := serves_twoRows
  exact ⟨hserves, (completed_copies_all_iff ⟨id, []⟩ countingSink 0 ⟨none, 0⟩ 1 none [[1], [2]] 3
    (by decide)).1 _ _ _ _ hserves (.inl rfl)⟩

/-- The token is set between the two reads of the second turn: the source gives
nothing, and one row out of two is a completed transfer. -/
theorem set_within_second_turn :
    Serves twoRows.connection none ['t'] [⟨['k'], none, false, true⟩] [[1], [2]] ∧
    ∃ run, runTransfer tableSource ⟨id, []⟩ countingSink 3 twoRows 0 ⟨some 3, 0⟩ = some run ∧
      run.result = .ok ⟨1, .completed, []⟩ ∧ run.chunks = [[[1]]] :=
  ⟨serves_twoRows, _, rfl, rfl, rfl⟩

/-! ## The pages of a table -/

/-- The chunks that `next_chunk` returns in front of its first `None`, without
cancellation. -/
def TableSource.chunks : ℕ → TableSource V → Option (List (List (List V)))
  | 0, _ => none
  | fuel + 1, source =>
    match tableSource.nextChunk source ⟨none, 0⟩ with
    | (.ok (some rows), source, _) => (source.chunks fuel).map (rows :: ·)
    | (.ok none, _, _) => some []
    | (.error _, _, _) => none

theorem exhausted_behind (source : TableSource V) (rows : List (List V)) :
    (source.behind rows).connection = source.connection ∧
      (source.behind rows).exhausted = decide (rows.length < source.segmentSize) := by
  unfold TableSource.behind
  dsimp only
  split
  · split <;> exact ⟨rfl, rfl⟩
  · exact ⟨rfl, rfl⟩

variable {source : TableSource V}

theorem chunks_of_exhausted (h : source.exhausted) (fuel : ℕ) :
    source.chunks (fuel + 1) = some [] := by
  simp [TableSource.chunks, tableSource, h]

/-- One call of `next_chunk` at a page. -/
theorem chunks_succ {page : List (List V)} (h : source.exhausted = false)
    (hpage : source.connection source.request = .ok page) (fuel : ℕ) :
    source.chunks (fuel + 1) =
      if page = [] then some [] else ((source.behind page).chunks fuel).map (page :: ·) := by
  simp only [TableSource.chunks, tableSource, h, CancelToken.isCancelled, hpage]
  cases page <;> rfl

/-- A source whose pages are the next rows as long as they are full returns all of
them. -/
theorem exists_chunks {I : TableSource V → List (List V) → Prop} (hsegment : 0 < segmentSize)
    (hpage : ∀ source rest, I source rest → source.segmentSize = segmentSize ∧
      source.connection source.request = .ok (rest.take segmentSize))
    (hnext : ∀ source rest, I source rest → segmentSize ≤ rest.length →
      I (source.behind (rest.take segmentSize)) (rest.drop segmentSize))
    {rest : List (List V)} (h : I source rest)
    (hexhausted : source.exhausted = false) :
    ∃ fuel chunks, source.chunks fuel = some chunks ∧ chunks.flatten = rest := by
  induction hlength : rest.length using Nat.strong_induction_on generalizing source rest with
  | _ n ih =>
    obtain ⟨hsize, hanswer⟩ := hpage source rest h
    by_cases hempty : rest = []
    · exact ⟨1, [], by simp [chunks_succ hexhausted hanswer, hempty], hempty.symm⟩
    have htake : rest.take segmentSize ≠ [] := by simp [hempty, hsegment.ne']
    have hbehind := (exhausted_behind source (rest.take segmentSize)).2
    rw [length_take, hsize] at hbehind
    by_cases hshort : rest.length < segmentSize
    · refine ⟨2, [rest.take segmentSize], ?_, by simp [take_of_length_le hshort.le]⟩
      rw [chunks_succ hexhausted hanswer, if_neg htake, chunks_of_exhausted (by simpa [hbehind])]
      rfl
    · obtain ⟨fuel, chunks, hchunks, hflatten⟩ :=
        ih _ (by simp only [length_drop]; omega) (hnext source rest h (not_lt.mp hshort))
          (by simpa [hbehind] using hshort) rfl
      refine ⟨fuel + 1, rest.take segmentSize :: chunks, ?_, by simp [hflatten]⟩
      rw [chunks_succ hexhausted hanswer, if_neg htake, hchunks]
      rfl

/-- A source that reads a table with these rows at offsets. -/
structure TableSource.AtOffsets (rows : List (List V)) (segmentSize : ℕ) (source : TableSource V) :
    Prop where
  keyset : source.keysetPk = none
  size : source.segmentSize = segmentSize
  answers : ∀ offset, source.connection ⟨source.schema, source.table,
    source.columns.map (·.name), .offset offset, segmentSize⟩ =
      .ok ((rows.drop offset).take segmentSize)

section

variable {rows : List (List V)} (h : source.AtOffsets rows segmentSize)
include h

theorem TableSource.AtOffsets.page :
    source.connection source.request = .ok ((rows.drop source.offset).take segmentSize) := by
  rw [← h.answers]
  simp only [TableSource.request, h.keyset, h.size]

theorem TableSource.AtOffsets.behind (page : List (List V)) :
    (source.behind page).AtOffsets rows segmentSize ∧
      (source.behind page).offset = (source.offset + page.length) % 2 ^ 32 := by
  obtain ⟨hkeyset, hsize, hanswers⟩ := h
  unfold TableSource.behind
  simp only [hkeyset]
  exact ⟨⟨rfl, hsize, hanswers⟩, trivial⟩

variable (hsegment : 0 < segmentSize) (hexhausted : source.exhausted = false)
include hsegment hexhausted

/-- As long as no offset wraps around, the pages are the rows behind the offset. -/
theorem exists_chunks_of_offsets (hoffset : source.offset = 0)
    (hrows : rows.length / segmentSize * segmentSize < 2 ^ 32) :
    ∃ fuel chunks, source.chunks fuel = some chunks ∧ chunks.flatten = rows := by
  refine exists_chunks (I := fun source rest => source.AtOffsets rows segmentSize ∧
    ∃ pages, source.offset = pages * segmentSize ∧ rest = rows.drop source.offset) hsegment ?_ ?_
    ⟨h, 0, by simpa using hoffset, by simp [hoffset]⟩ hexhausted
  · rintro source rest ⟨hat, pages, -, rfl⟩
    exact ⟨hat.size, hat.page⟩
  · rintro source rest ⟨hat, pages, hpages, rfl⟩ hfull
    obtain ⟨hbehind, hnext⟩ := hat.behind ((rows.drop source.offset).take segmentSize)
    have hlength : ((rows.drop source.offset).take segmentSize).length = segmentSize := by
      rw [length_take, min_eq_left hfull]
    rw [length_drop] at hfull
    have hread : (pages + 1) * segmentSize ≤ rows.length := by rw [Nat.add_one_mul]; omega
    have hbound : (pages + 1) * segmentSize < 2 ^ 32 :=
      (Nat.mul_le_mul_right _ ((Nat.le_div_iff_mul_le hsegment).mpr hread)).trans_lt hrows
    have hsum : source.offset + segmentSize = (pages + 1) * segmentSize := by
      rw [hpages, Nat.add_one_mul]
    rw [hlength, hsum, Nat.mod_eq_of_lt hbound] at hnext
    exact ⟨hbehind, pages + 1, hnext, by rw [hnext, drop_drop, hsum]⟩

/-- What is returned at offsets that may wrap around: full pages, and a short one at
the offset behind them. -/
theorem length_of_chunks {fuel : ℕ} {chunks : List (List (List V))}
    (hoffset : source.offset < 2 ^ 32)
    (hchunks : source.chunks fuel = some chunks) :
    ∃ pages short, chunks.flatten.length = pages * segmentSize + short ∧ short < segmentSize ∧
      short = rows.length - (source.offset + pages * segmentSize) % 2 ^ 32 := by
  induction fuel generalizing source chunks with
  | zero => cases hchunks
  | succ fuel ih =>
    rw [chunks_succ hexhausted h.page] at hchunks
    have hlength : ((rows.drop source.offset).take segmentSize).length =
        min segmentSize (rows.length - source.offset) := by simp
    split_ifs at hchunks with hempty
    · cases hchunks
      rw [hempty] at hlength
      exact ⟨0, 0, by simp, hsegment, by simp only [length_nil] at hlength; omega⟩
    obtain ⟨rest, hrest, rfl⟩ := Option.map_eq_some_iff.mp hchunks
    obtain ⟨hbehind, hnext⟩ := h.behind ((rows.drop source.offset).take segmentSize)
    have hlast := (exhausted_behind source ((rows.drop source.offset).take segmentSize)).2
    rw [hlength, h.size] at hlast
    by_cases hshort : rows.length - source.offset < segmentSize
    · -- A short page is the last one.
      have hrest' : rest = [] := by
        cases fuel with
        | zero => cases hrest
        | succ fuel =>
          rw [chunks_of_exhausted (by simpa [hlast] using hshort)] at hrest
          exact (Option.some.inj hrest).symm
      exact ⟨0, rows.length - source.offset, by simp [hrest', hlength, hshort.le], hshort,
        by simp; omega⟩
    · obtain ⟨pages, short, hpages, hlt, heq⟩ := ih hbehind (by simpa [hlast] using hshort)
        (hnext ▸ Nat.mod_lt _ (by decide)) hrest
      refine ⟨pages + 1, short, ?_, hlt, ?_⟩
      · rw [flatten_cons, length_append, hlength, hpages, Nat.add_one_mul]
        omega
      · rw [heq, hnext, hlength, min_eq_left (not_lt.mp hshort), Nat.mod_add_mod, Nat.add_one_mul]
        omega

/-- At offsets every row is returned once exactly if no offset that is asked for wraps
around. -/
theorem cover_iff_of_offsets (hoffset : source.offset = 0) :
    (∃ fuel chunks, source.chunks fuel = some chunks ∧ chunks.flatten = rows) ↔
      rows.length / segmentSize * segmentSize < 2 ^ 32 := by
  constructor
  · rintro ⟨fuel, chunks, hchunks, rfl⟩
    obtain ⟨pages, short, hlength, hshort, heq⟩ :=
      length_of_chunks h hsegment hexhausted (hoffset ▸ Nat.two_pow_pos 32) hchunks
    rw [hlength, Nat.add_comm, Nat.add_mul_div_right _ _ hsegment, Nat.div_eq_of_lt hshort,
      Nat.zero_add]
    omega
  · exact exists_chunks_of_offsets h hsegment hexhausted hoffset

end

section

variable [Preorder V] [DecidableLT V]

/-- The connection answers every page of a table with these rows, of any number. -/
structure Pages (connection : Connection V) (schema : Option Text) (table : Text)
    (columns : List TransferColumn) (rows : List (List V)) : Prop where
  answers : ∀ request, ∃ page, connection request = .ok page
  serves : Serves connection schema table columns rows

/-- **Pages of a table.** For every table and segment size the chunks in front of the
first `None` are the rows, each once, exactly if the table has one key column or
the last offset that is asked for is below `2 ^ 32`. -/
theorem chunks_cover_iff {connection : Connection V} {schema : Option Text} {table : Text}
    {columns : List TransferColumn} {rows : List (List V)}
    (h : Pages connection schema table columns rows) (segmentSize : ℕ) (total : Option ℕ) :
    (∃ fuel chunks, (TableSource.new connection schema table columns segmentSize total).chunks fuel =
        some chunks ∧ chunks.flatten = rows) ↔
      (singlePrimaryKeyColumn columns).isSome ∨
        rows.length / max segmentSize 1 * max segmentSize 1 < 2 ^ 32 := by
  have hsegment : 0 < max segmentSize 1 := by omega
  cases hkey : singlePrimaryKeyColumn columns with
  | some key =>
    refine iff_of_true ?_ (.inl rfl)
    refine exists_chunks (I := fun source rest => source.Holds rows (max segmentSize 1) rest ∧
      source.connection = connection ∧ ¬ source.exhausted) hsegment ?_ ?_
      ⟨holds_new segmentSize total h.serves (.inl (by simp [hkey])), rfl, nofun⟩ rfl
    · rintro source rest ⟨hholds, rfl, hexhausted⟩
      obtain ⟨page, hpage⟩ := h.answers source.request
      exact ⟨hholds.size, page_eq_take hholds hexhausted hpage ▸ hpage⟩
    · rintro source rest ⟨hholds, rfl, hexhausted⟩ hfull
      obtain ⟨hconnection, hbehind⟩ := exhausted_behind source (rest.take (max segmentSize 1))
      refine ⟨holds_behind hholds hexhausted (length_pos_iff.mp (hsegment.trans_le hfull)) hsegment,
        hconnection, ?_⟩
      rw [hbehind, hholds.size, length_take, min_eq_left hfull]
      simp
  | none =>
    have hat : (TableSource.new connection schema table columns segmentSize total).AtOffsets rows
        (max segmentSize 1) := by
      refine ⟨hkey, rfl, fun offset => ?_⟩
      obtain ⟨page, hpage⟩ := h.answers ⟨schema, table, columns.map (·.name), .offset offset, _⟩
      have hserves := h.serves
      rw [Serves, hkey] at hserves
      exact hserves _ _ _ hpage ▸ hpage
    simpa using cover_iff_of_offsets hat hsegment rfl rfl

end

/-- Two rows of a key column, in pages of one row. -/
theorem two_rows_in_pages :
    Pages twoRows.connection none ['t'] [⟨['k'], none, false, true⟩] [[1], [2]] ∧
    ∃ fuel chunks, twoRows.chunks fuel = some chunks ∧ chunks.flatten = [[1], [2]] := by
  have hpages : Pages twoRows.connection none ['t'] [⟨['k'], none, false, true⟩] [[1], [2]] :=
    ⟨by rintro ⟨_, _, _, _ | _, _⟩ <;> exact ⟨_, rfl⟩, serves_twoRows⟩
  exact ⟨hpages, (chunks_cover_iff hpages 1 none).mpr (.inl rfl)⟩

/-- A table of one column that is no key. -/
def valueColumn : List TransferColumn := [⟨['v'], none, false, false⟩]

/-- `2 ^ 32` rows without a key column: behind the last row the offset is that of the
first. -/
theorem offset_wraps_around : ∃ rows : List (List ℕ), rows.length = 2 ^ 32 ∧
      Pages (.ofRows valueColumn rows) none ['t'] valueColumn rows ∧
      ¬ ∃ fuel chunks, (TableSource.new (.ofRows valueColumn rows) none ['t'] valueColumn 1
        none).chunks fuel = some chunks ∧ chunks.flatten = rows := by
  refine ⟨replicate (2 ^ 32) [1], length_replicate, ⟨?_, ?_⟩, ?_⟩
  · rintro ⟨_, _, _, _ | _, _⟩ <;> exact ⟨_, rfl⟩
  · rintro offset limit page hpage
    exact (Except.ok.inj hpage).symm
  · have hat : (TableSource.new (.ofRows valueColumn (replicate (2 ^ 32) [1])) none ['t'] valueColumn
        1 none).AtOffsets (replicate (2 ^ 32) [1]) 1 := ⟨rfl, rfl, fun _ => rfl⟩
    rw [cover_iff_of_offsets hat Nat.one_pos rfl rfl, length_replicate]
    omega

end Dbflux.Transfer

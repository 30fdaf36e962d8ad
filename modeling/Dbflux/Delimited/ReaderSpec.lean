import Dbflux.Delimited.Reader

/-!
# One scan of the whole source, and windowed fetching

What a reader over some content should answer is stated without pages,
windows or cursors: scan the whole content in one buffer (`rawRecords`), take
the first record as the header, and cut the rest into slices. The reader
reaches the same records through a page index, a cursor it reuses and windowed
fetches that can cut a record, a code unit or a line break, and that can fail.

Results:
* `rawRecords_offsetOf`: a scan that starts at a record finds the records from
  there on.
* `nextRecord_ensures`: the windowed search finds the record length that the
  whole rest of the source gives, whatever the window.
-/

namespace Dbflux.Delimited

open Lib List

/-! ## One scan of the whole source -/

section Whole

variable (dialect : Dialect) (layout : Layout) (content : Bytes)

/-- The length of the byte-order mark at the start of `content`. -/
def markLength (encoding : Encoding) (content : Bytes) : ℕ :=
  if !(byteOrderMark encoding).isEmpty && (byteOrderMark encoding).isPrefixOf content then
    (byteOrderMark encoding).length
  else 0

/-- The bytes of all records, the header's included. -/
def allRaw : List Bytes := rawRecords layout (content.drop (markLength dialect.encoding content))

/-- The bytes of the header. -/
def headerRaw : Option Bytes :=
  if dialect.hasHeader then (allRaw dialect layout content).head? else none

/-- The bytes of the data records. -/
def dataRaw : List Bytes :=
  if dialect.hasHeader then (allRaw dialect layout content).tail else allRaw dialect layout content

/-- Where the data starts. -/
def dataStart : ℕ :=
  markLength dialect.encoding content + ((headerRaw dialect layout content).map List.length).getD 0

/-- Consecutive records from offset `start` on. -/
def recordsFrom (layout : Layout) (encoding : Encoding) (start : ℕ) : List Bytes → List Record
  | [] => []
  | bytes :: rest =>
    recordAt layout encoding start bytes :: recordsFrom layout encoding (start + bytes.length) rest

/-- The header record. -/
def headerRecord : Option Record :=
  (headerRaw dialect layout content).map
    (recordAt layout dialect.encoding (markLength dialect.encoding content))

/-- The data records. -/
def dataRecords : List Record :=
  recordsFrom layout dialect.encoding (dataStart dialect layout content)
    (dataRaw dialect layout content)

/-- The offset of data record `k`. -/
def offsetOf (k : ℕ) : ℕ :=
  dataStart dialect layout content + ((dataRaw dialect layout content).take k).flatten.length

end Whole

section WholeLemmas

variable {dialect : Dialect} {layout : Layout} {content : Bytes}

theorem rawRecords_drop (layout : Layout) (bytes : Bytes) (k : ℕ) :
    rawRecords layout (bytes.drop ((rawRecords layout bytes).take k).flatten.length) =
      (rawRecords layout bytes).drop k := by
  induction k generalizing bytes with
  | zero => simp
  | succ k ih =>
    by_cases hne : bytes = []
    · subst hne
      simp
    · obtain ⟨length, hlen⟩ := recordLength_true_isSome layout hne
      have hle := (recordLength_bounds hlen).2
      rw [rawRecords_eq hlen, take_succ_cons, flatten_cons, length_append,
        length_take_of_le hle, ← drop_drop, ih, drop_succ_cons]

variable (encoding : Encoding)

theorem markLength_le (content : Bytes) : markLength encoding content ≤ content.length := by
  unfold markLength
  split_ifs with h
  · rw [Bool.and_eq_true] at h
    exact (List.isPrefixOf_iff_prefix.mp h.2).length_le
  · exact Nat.zero_le _

/-- From where a data record starts, the scan finds the remaining records. -/
theorem rawRecords_offsetOf (dialect : Dialect) (layout : Layout) (content : Bytes) (k : ℕ) :
    rawRecords layout (content.drop (offsetOf dialect layout content k)) =
      (dataRaw dialect layout content).drop k := by
  unfold offsetOf dataStart headerRaw dataRaw
  split_ifs with hheader
  · have h := rawRecords_drop layout (content.drop (markLength dialect.encoding content)) (k + 1)
    cases hall : allRaw dialect layout content with
    | nil => simpa [allRaw] using hall
    | cons first rest =>
      unfold allRaw at hall
      rw [hall] at h
      simpa [Nat.add_assoc] using h
  · have h := rawRecords_drop layout (content.drop (markLength dialect.encoding content)) k
    simpa [allRaw] using h

theorem mark_add_flatten (dialect : Dialect) (layout : Layout) (content : Bytes) :
    markLength dialect.encoding content + (allRaw dialect layout content).flatten.length =
      content.length := by
  rw [allRaw, rawRecords_flatten, length_drop]
  have := markLength_le dialect.encoding content
  omega

/-- The mark, the header and the data records take up the whole content. -/
theorem dataStart_add_flatten (dialect : Dialect) (layout : Layout) (content : Bytes) :
    dataStart dialect layout content + (dataRaw dialect layout content).flatten.length =
      content.length := by
  have h := mark_add_flatten dialect layout content
  unfold dataStart headerRaw dataRaw
  split_ifs
  · cases hall : allRaw dialect layout content with
    | nil =>
      rw [hall] at h
      simpa using h
    | cons first rest =>
      rw [hall, flatten_cons, length_append] at h
      simp only [head?_cons, Option.map_some, Option.getD_some, tail_cons]
      omega
  · simpa using h

theorem dataRaw_ne_nil {bytes : Bytes} (h : bytes ∈ dataRaw dialect layout content) :
    bytes ≠ [] := by
  unfold dataRaw at h
  split_ifs at h
  · exact rawRecords_ne_nil (mem_of_mem_tail h)
  · exact rawRecords_ne_nil h

theorem flatten_take_add_drop (raw : List Bytes) (k : ℕ) :
    (raw.take k).flatten.length + (raw.drop k).flatten.length = raw.flatten.length := by
  rw [← length_append, ← flatten_append, take_append_drop]

theorem offsetOf_le (k : ℕ) : offsetOf dialect layout content k ≤ content.length := by
  have h := dataStart_add_flatten dialect layout content
  have hsplit := flatten_take_add_drop (dataRaw dialect layout content) k
  unfold offsetOf
  omega

theorem flatten_length_pos {l : List Bytes} (hne : l ≠ []) (h : ∀ b ∈ l, b ≠ []) :
    0 < l.flatten.length := by
  obtain ⟨first, rest, rfl⟩ := exists_cons_of_ne_nil hne
  have := List.length_pos_iff.mpr (h first mem_cons_self)
  rw [flatten_cons, length_append]
  omega

/-- A record index is within the data exactly when its offset is within the
content. -/
theorem offsetOf_lt_iff (k : ℕ) :
    offsetOf dialect layout content k < content.length ↔
      k < (dataRaw dialect layout content).length := by
  have h := dataStart_add_flatten dialect layout content
  have hsplit := flatten_take_add_drop (dataRaw dialect layout content) k
  unfold offsetOf
  constructor
  · intro hlt
    by_contra hge
    rw [drop_eq_nil_of_le (by omega)] at hsplit
    simp only [flatten_nil, length_nil] at hsplit
    omega
  · intro hlt
    have hpos : 0 < ((dataRaw dialect layout content).drop k).flatten.length := by
      refine flatten_length_pos (fun hnil => ?_) fun b hb =>
        dataRaw_ne_nil (mem_of_mem_drop hb)
      have := congrArg List.length hnil
      rw [length_drop, length_nil] at this
      omega
    omega

theorem recordsFrom_length (start : ℕ) (raw : List Bytes) :
    (recordsFrom layout encoding start raw).length = raw.length := by
  induction raw generalizing start with
  | nil => rfl
  | cons bytes rest ih => rw [recordsFrom, length_cons, ih, length_cons]

theorem recordsFrom_take (start k : ℕ) (raw : List Bytes) :
    (recordsFrom layout encoding start raw).take k =
      recordsFrom layout encoding start (raw.take k) := by
  induction raw generalizing start k with
  | nil => simp [recordsFrom]
  | cons bytes rest ih =>
    cases k with
    | zero => simp [recordsFrom]
    | succ k => rw [recordsFrom, take_succ_cons, take_succ_cons, recordsFrom, ih]

theorem recordsFrom_drop (start k : ℕ) (raw : List Bytes) :
    (recordsFrom layout encoding start raw).drop k =
      recordsFrom layout encoding (start + (raw.take k).flatten.length) (raw.drop k) := by
  induction raw generalizing start k with
  | nil => simp [recordsFrom]
  | cons bytes rest ih =>
    cases k with
    | zero => simp [recordsFrom]
    | succ k =>
      rw [recordsFrom, drop_succ_cons, drop_succ_cons, ih, take_succ_cons,
        flatten_cons, length_append, Nat.add_assoc]

end WholeLemmas

/-! ## Fetching -/

/-- The cursor holds bytes of `content` at the place it says. -/
structure Cursor.Reads (cursor : Cursor) (content : Bytes) : Prop where
  consumed_le : cursor.consumed ≤ cursor.buffer.length
  splits : ∃ before after, content = before ++ (cursor.buffer ++ after) ∧
    before.length = cursor.bufferStart

namespace Cursor

variable {cursor : Cursor} {content : Bytes}

theorem reads_atOffset {offset : ℕ} (h : offset ≤ content.length) :
    (atOffset offset).Reads content :=
  ⟨le_rfl, content.take offset, content.drop offset, by simp [atOffset], length_take_of_le h⟩

variable (h : cursor.Reads content)
include h

theorem Reads.bufferEnd_le : cursor.bufferEnd ≤ content.length := by
  obtain ⟨-, before, after, hsplit, hlen⟩ := h
  rw [hsplit, bufferEnd, ← hlen]
  simp only [length_append]
  omega

/-- What is left of the content at the cursor starts with the fetched bytes. -/
theorem Reads.drop_offset :
    content.drop cursor.offset = cursor.remaining ++ content.drop cursor.bufferEnd := by
  obtain ⟨hle, before, after, hsplit, hlen⟩ := h
  have hend : content.drop cursor.bufferEnd = after := by
    rw [hsplit, bufferEnd, ← append_assoc]
    exact drop_left' (by rw [length_append, hlen])
  have hoffset : content.drop cursor.offset = cursor.remaining ++ after := by
    rw [hsplit, offset, ← hlen, drop_length_add_append, drop_append_of_le_length hle]
    rfl
  rw [hoffset, hend]

omit h in
theorem remaining_length (h : cursor.consumed ≤ cursor.buffer.length) :
    cursor.offset + cursor.remaining.length = cursor.bufferEnd := by
  rw [offset, remaining, bufferEnd, length_drop]
  omega

theorem Reads.consume {length : ℕ} (hle : length ≤ cursor.remaining.length) :
    (cursor.consume length).Reads content ∧
      (cursor.consume length).offset = cursor.offset + length := by
  have hrem := remaining_length h.consumed_le
  have hend : cursor.bufferEnd = cursor.bufferStart + cursor.buffer.length := rfl
  have hoff : cursor.offset = cursor.bufferStart + cursor.consumed := rfl
  refine ⟨⟨Nat.min_le_right _ _, h.splits⟩, ?_⟩
  simp only [Cursor.consume, offset]
  omega

/-- Bytes fetched from the end of the buffer extend it. -/
theorem Reads.append {bytes after : Bytes}
    (hbytes : content.drop cursor.bufferEnd = bytes ++ after) :
    (cursor.append bytes).Reads content ∧ (cursor.append bytes).offset = cursor.offset ∧
      (cursor.append bytes).bufferEnd = cursor.bufferEnd + bytes.length := by
  have hrem := remaining_length h.consumed_le
  have hoff : cursor.offset ≤ content.length := 
    (Nat.add_le_add_left h.consumed_le _).trans h.bufferEnd_le
  refine ⟨⟨Nat.zero_le _, content.take cursor.offset, after, ?_, ?_⟩, rfl, ?_⟩
  · rw [Cursor.append, append_assoc, ← hbytes]
    exact (take_append_drop cursor.offset content).symm.trans (by rw [h.drop_offset]; rfl)
  · exact length_take_of_le hoff
  · simp only [Cursor.append, bufferEnd, length_append] at hrem ⊢
    rw [remaining] at hrem
    omega

omit h

end Cursor

theorem Source.slice_eq (content : Bytes) {start finish : ℕ} (hle : start ≤ finish)
    (hfinish : finish ≤ content.length) :
    slice content start finish = (content.drop start).take (finish - start) := by
  simp [slice, Nat.min_eq_left hfinish, Nat.min_eq_left hle]

/-- A read never changes the content, and returns a leading part of the range. -/
theorem Source.readRange_ensures (source : Source) (start finish : ℕ) :
    Ensures (readRange start finish) source
      (fun bytes t => t.content = source.content ∧ bytes <+: slice source.content start finish)
      (fun t => t.content = source.content) := by
  unfold Ensures readRange
  cases source.answers source.calls with
  | ok => exact ⟨rfl, prefix_rfl⟩
  | fail message => exact rfl
  | short count => exact ⟨rfl, take_prefix _ _⟩

/-- A fetch extends the cursor by at least one byte of the content. -/
theorem extend_ensures (source : Source) {cursor : Cursor} {request : ℕ}
    (hreads : cursor.Reads source.content) (hmore : cursor.bufferEnd < source.content.length)
    (hrequest : 0 < request) :
    Ensures (extend source.content.length cursor request) source
      (fun c t => t.content = source.content ∧ c.Reads source.content ∧
        c.offset = cursor.offset ∧ cursor.bufferEnd < c.bufferEnd)
      (fun t => t.content = source.content) := by
  set start := cursor.bufferEnd with hstart
  set finish := min (start + request) source.content.length with hfinish
  have hlt : start < finish := by omega
  have hslice := Source.slice_eq source.content hlt.le (Nat.min_le_right _ _)
  refine (Source.readRange_ensures source start finish).andThen ?_
  rintro bytes t ⟨hcontent, hprefix⟩
  rw [hslice] at hprefix
  split_ifs with hlength
  · exact Ensures.bind (Ensures.throw hcontent)
  · have hbytes : bytes = (source.content.drop start).take (finish - start) :=
      hprefix.eq_of_length (by rw [length_take, length_drop]; omega)
    have hrest : source.content.drop start =
        bytes ++ (source.content.drop start).drop (finish - start) := by
      rw [hbytes, take_append_drop]
    obtain ⟨hreads', hoffset, hend⟩ := hreads.append hrest
    exact .bind (.pure (.pure ⟨hcontent, hreads', hoffset, by omega⟩))

/-- What `next_record` answers at an offset: the record that the rest of the
content starts with, whose bytes are fetched. -/
structure NextRecord (content : Bytes) (layout : Layout) (offset : ℕ)
    (result : Option ℕ × Cursor) : Prop where
  reads : result.2.Reads content
  offset_eq : result.2.offset = offset
  found : result.1 = recordLength (content.drop offset) layout true
  fetched : ∀ length ∈ result.1, length ≤ result.2.remaining.length

section NextRecord

variable {content : Bytes} {layout : Layout} {offset length : ℕ} {cursor : Cursor}

theorem NextRecord.eq_nil (h : NextRecord content layout offset (none, cursor)) :
    content.drop offset = [] := by
  by_contra hne
  obtain ⟨length, hlength⟩ := recordLength_true_isSome layout hne
  rw [← h.found] at hlength
  cases hlength

theorem NextRecord.take (h : NextRecord content layout offset (some length, cursor)) :
    cursor.remaining.take length = (content.drop offset).take length := by
  rw [← h.offset_eq, h.reads.drop_offset, take_append_of_le_length (h.fetched length rfl)]

end NextRecord

/-- **The window does not matter.** `next_record` finds the record that the
whole rest of the source starts with, and has fetched its bytes. -/
theorem nextRecord_ensures {source : Source} {layout : Layout} {windowSize : ℕ} {cursor : Cursor}
    (hreads : cursor.Reads source.content) (hwindow : 0 < windowSize) :
    Ensures (nextRecord layout source.content.length windowSize cursor) source
      (fun result t => t.content = source.content ∧
        NextRecord source.content layout cursor.offset result)
      (fun t => t.content = source.content) := by
  suffices h : ∀ (fuel request : ℕ) (source' : Source) (c : Cursor),
      source'.content = source.content → c.Reads source.content → c.offset = cursor.offset →
      0 < request → source.content.length - c.bufferEnd < fuel →
      Ensures (nextRecordLoop layout source.content.length fuel request c) source'
        (fun result t => t.content = source.content ∧
          NextRecord source.content layout cursor.offset result)
        (fun t => t.content = source.content) from
    h _ _ source cursor rfl hreads rfl hwindow (Nat.lt_succ_self _)
  intro fuel
  induction fuel with
  | zero => intro _ _ _ _ _ _ _ hfuel; omega
  | succ fuel ih =>
    intro request source' c hsource hc hoffset hrequest hfuel
    have hrest := hc.drop_offset
    rw [hoffset] at hrest
    simp only [nextRecordLoop]
    by_cases hat : c.bufferEnd ≥ source.content.length
    · -- at the end of the source the buffer holds all that is left
      have hall : source.content.drop c.bufferEnd = [] := drop_eq_nil_of_le hat
      rw [hall, append_nil] at hrest
      simp only [hat, decide_true, Bool.or_true, if_true]
      refine .pure ⟨hsource, hc, hoffset, by rw [hrest], fun length hlen => ?_⟩
      exact (recordLength_bounds (Option.mem_def.mp hlen)).2
    · simp only [hat, decide_false, Bool.or_false]
      cases hfound : recordLength c.remaining layout false with
      | some length =>
        refine .pure ⟨hsource, hc, hoffset, ?_, fun n hn => ?_⟩
        · rw [hrest, recordLength_append hfound]
        · cases hn
          exact (recordLength_bounds hfound).2
      | none =>
        have hext := extend_ensures source' (hsource ▸ hc) (by rw [hsource]; omega) hrequest
        rw [hsource] at hext
        refine hext.andThen ?_
        rintro c' t ⟨ht, hc', hoffset', hmore⟩
        exact ih (request * 2) t c' ht hc' (hoffset'.trans hoffset) (by omega) (by omega)

end Dbflux.Delimited

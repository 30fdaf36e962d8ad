import Dbflux.Delimited.WriterOutput
import Dbflux.Delimited.WriterPlan

/-!
# What a successful save wrote

`write_edited` plans, checks and then writes. This module says what each check
establishes and puts the phases together: the output is the byte-order mark,
the output records of `Emission.emit`, and the records inserted at the end.

Results:
* `checkBeforeWriting_ensures`: what holds once the checks have passed.
* `firstTerminator_ensures`, `writeAtEnd_ensures`: the terminators of inserted
  records.
* `writeEdited_ensures`: the bytes of a successful save.
-/

namespace Dbflux.Delimited

open Lib List

/-! ## Terminators of ranges -/

section Terminators

variable {layout : Layout}

theorem terminatorOf_nil (layout : Layout) : terminatorOf layout [] = [] := drop_nil

theorem terminatorOf_of_not_whole {bytes : Bytes} (h : bytes.length % layout.width.size ≠ 0) :
    terminatorOf layout bytes = [] := by
  unfold terminatorOf terminatorLength
  simp [if_pos h]

/-- The last two units decide what the terminator is. -/
theorem terminatorOf_drop {bytes : Bytes} (hwhole : layout.width.size ∣ bytes.length) {n : ℕ}
    (hn : n + 2 ≤ (layout.width.units bytes).length) :
    terminatorOf layout (bytes.drop (layout.width.size * n)) = terminatorOf layout bytes := by
  have hle : n ≤ (layout.width.units bytes).length := by omega
  have hlength := length_of_whole hwhole
  have hdrop : (bytes.drop (layout.width.size * n)).length =
      bytes.length - layout.width.size * n := length_drop ..
  have hwhole' : layout.width.size ∣ (bytes.drop (layout.width.size * n)).length := by
    rw [hdrop]
    exact Nat.dvd_sub hwhole (Nat.dvd_mul_right _ _)
  have hlast : ∀ i, i < 2 → (layout.width.units (bytes.drop (layout.width.size * n))).reverse[i]? =
      (layout.width.units bytes).reverse[i]? := by
    intro i hi
    rw [layout.width.units_drop hle, getElem?_reverse (by rw [length_drop]; omega),
      getElem?_reverse (by omega), getElem?_drop, length_drop]
    congr 1
    omega
  have hterm : terminatorLength (bytes.drop (layout.width.size * n)) layout =
      terminatorLength bytes layout := by
    rw [terminatorLength_eq hwhole, terminatorLength_eq hwhole', hlast 0 (by omega),
      hlast 1 (by omega)]
  have hshort : terminatorLength bytes layout ≤ 2 * layout.width.size := by
    rw [terminatorLength_eq hwhole]
    split_ifs <;> omega
  have hroom : layout.width.size * n + 2 * layout.width.size ≤ bytes.length := by
    rw [hlength, Nat.mul_comm 2, ← Nat.mul_add]
    exact Nat.mul_le_mul_left _ hn
  unfold terminatorOf
  rw [hterm, hdrop, drop_drop]
  congr 1
  omega

end Terminators

/-! ## The records of a source -/

section Records

variable (dialect : Dialect) (layout : Layout) (content : Bytes)

/-- All records of a source, the header first. -/
def allRecords : List Record :=
  recordsFrom layout dialect.encoding (markLength dialect.encoding content)
    (allRaw dialect layout content)

theorem header_append_data :
    (headerRecord dialect layout content).toList ++ dataRecords dialect layout content =
      allRecords dialect layout content := by
  unfold allRecords headerRecord dataRecords dataStart headerRaw dataRaw
  by_cases hheader : dialect.hasHeader = true
  · simp only [if_pos hheader]
    cases allRaw dialect layout content <;> rfl
  · simp only [if_neg hheader]
    rfl

/-- The terminator of an inserted record that has none to take over. -/
def fallbackTerminator (records : List Bytes) : Bytes :=
  let first := (records.head?.map (terminatorOf layout)).getD []
  if first.isEmpty then layout.width.unitBytes lineFeed else first

end Records

namespace Output

variable {layout : Layout} {windowSize : ℕ} {out : Output}

variable (h : Tracks layout out)
include h

theorem terminatorOfRange_ensures (range : ByteRange)
    (hrange : range.finish ≤ out.source.content.length) :
    Leaves (terminatorOfRange layout range) out (fun terminator t => Wrote layout out [] t ∧
        terminator = terminatorOf layout (piece out.source.content range.start range.finish)) := by
  have hlength : (piece out.source.content range.start range.finish).length =
      range.finish - range.start := by
    rw [piece, length_take, length_drop]
    omega
  unfold terminatorOfRange
  by_cases hempty : range.start ≥ range.finish ∨
      (range.finish - range.start) % layout.width.size ≠ 0
  · rw [if_pos hempty]
    refine .pure ⟨h.refl, ?_⟩
    rcases hempty with hempty | hhalf
    · rw [piece_eq_nil _ hempty, terminatorOf_nil]
    · rw [terminatorOf_of_not_whole (by rwa [hlength])]
  · rw [if_neg hempty]
    obtain ⟨hlt, hmod⟩ := not_or.mp hempty
    refine (read_ensures h _ _).next ?_
    rintro bytes t ⟨hread, rfl, -⟩
    refine .pure ⟨hread, ?_⟩
    set whole := piece out.source.content range.start range.finish with hpiece
    have hwhole : layout.width.size ∣ whole.length := by
      rw [hlength]
      exact Nat.dvd_of_mod_eq_zero (not_not.mp hmod)
    have hunits := length_of_whole hwhole
    by_cases hshort : range.finish - 2 * layout.width.size ≤ range.start
    · rw [Nat.max_eq_right hshort]
    · -- the last two units of the range are read
      have hstart := Nat.max_eq_left (Nat.le_of_not_le hshort)
      have htwo : 2 ≤ (layout.width.units whole).length := by
        by_contra hfew
        have : layout.width.size * (layout.width.units whole).length ≤
            layout.width.size * 1 := Nat.mul_le_mul_left _ (by omega)
        omega
      have hsplit : layout.width.size * ((layout.width.units whole).length - 2) =
          range.finish - range.start - 2 * layout.width.size := by
        rw [Nat.mul_sub, ← hunits, hlength, Nat.mul_comm _ 2]
      have htail : piece out.source.content (range.finish - 2 * layout.width.size) range.finish =
          whole.drop (layout.width.size * ((layout.width.units whole).length - 2)) := by
        rw [hsplit, hpiece, drop_piece]
        congr 1
        omega
      rw [hstart, htail, terminatorOf_drop hwhole (by omega)]

/-! ## The checks before writing -/

/-- A range that passes has the terminator of its own bytes. -/
theorem checkRecordBoundaries_ensures (range bounds : ByteRange)
    (hstart : bounds.start ≤ range.start) :
    Leaves (checkRecordBoundaries layout range bounds) out
      (fun terminator t => Wrote layout out [] t ∧
        terminator = terminatorOf layout (piece out.source.content range.start range.finish)) := by
  unfold checkRecordBoundaries
  dsimp only
  by_cases haligned : (range.start - bounds.start) % layout.width.size ≠ 0
  · rw [if_pos haligned]
    exact .stop
  rw [if_neg haligned]
  set lead := if range.start = bounds.start then 0 else layout.width.size with hlead
  set readEnd := min (range.finish + layout.width.size) bounds.finish
  -- the unit in front of the range is within the data
  have hfits : lead ≤ range.start := by
    rw [hlead]
    split_ifs with hfirst
    · exact Nat.zero_le _
    · have := Nat.le_of_dvd (by omega) (Nat.dvd_of_mod_eq_zero (not_not.mp haligned))
      omega
  refine (read_ensures h _ _).next ?_
  rintro bytes t ⟨hread, rfl, -⟩
  rw [drop_piece, Nat.sub_add_cancel hfits]
  split
  · exact .stop
  split
  · exact .stop
  · cases hlength : recordLength (piece out.source.content range.start readEnd) layout
        (decide (readEnd ≥ bounds.finish)) with
    | none => exact .throw trivial
    | some length =>
      dsimp only
      by_cases hexact : length ≠ range.finish - range.start
      · rw [if_pos hexact]
        exact .stop
      · rw [if_neg hexact]
        refine .pure ⟨hread, ?_⟩
        have hle := (recordLength_bounds hlength).2
        rw [piece, length_take] at hle
        congr 1
        rw [piece, take_take, piece]
        congr 1
        omega

/-- The planned records with the terminators found in the source. -/
def Checked (layout : Layout) (content : Bytes) (records checked : PlannedRecords) : Prop :=
  ∀ k, checked.get? k = (records.get? k).map fun record =>
    { record with terminator := terminatorOf layout (piece content k record.finish) }

omit h in
theorem checkRecords_ensures (bounds : ByteRange) :
    ∀ (entries : List (ℕ × RecordPlan)) (records : PlannedRecords) (out : Output),
    Tracks layout out → (entries.Pairwise fun a b => a.1 < b.1) →
    (∀ entry ∈ entries, bounds.start ≤ entry.1) →
    Leaves (checkRecords layout bounds entries records) out
      (fun checked t => Wrote layout out [] t ∧ ∀ k,
        (∀ record, (k, record) ∈ entries → checked.get? k = some { record with
          terminator := terminatorOf layout (piece out.source.content k record.finish) }) ∧
        ((∀ entry ∈ entries, entry.1 ≠ k) → checked.get? k = records.get? k)) := by
  intro entries
  induction entries with
  | nil =>
    intro records out h _ _
    exact .pure ⟨h.refl, fun k => ⟨fun record hmem => (by cases hmem), fun _ => rfl⟩⟩
  | cons entry rest ih =>
    obtain ⟨start, record⟩ := entry
    intro records out h hsorted hbounds
    obtain ⟨hfirst, hrest⟩ := pairwise_cons.mp hsorted
    refine (checkRecordBoundaries_ensures h ⟨start, record.finish⟩ bounds
      (hbounds _ mem_cons_self)).next ?_
    rintro terminator t ⟨hcheck, rfl⟩
    refine (ih _ t hcheck.tracks hrest fun e he => hbounds e (mem_cons_of_mem _ he)).imp ?_
    rintro checked u ⟨hwrote, hchecked⟩
    refine ⟨hcheck.trans hwrote, fun k => ⟨fun r hmem => ?_, fun hother => ?_⟩⟩
    · rcases mem_cons.mp hmem with heq | hlater
      · obtain ⟨rfl, rfl⟩ := Prod.mk.inj heq
        rw [(hchecked k).2 fun e he => (hfirst e he).ne', OrderedMap.get?_set, if_pos rfl]
      · rw [(hchecked k).1 r hlater, hcheck.content]
    · rw [(hchecked k).2 fun e he => hother e (mem_cons_of_mem _ he), OrderedMap.get?_set,
        if_neg (hother _ mem_cons_self).symm]

/-- A copied record that the deletions in front of it leave first does not
start with the mark. -/
def FirstRecordOk (records : PlannedRecords) (content : Bytes) (bounds : ByteRange)
    (mark : Bytes) : Prop :=
  bounds.start = 0 → mark ≠ [] → ∀ position,
    firstCopied records (records.entries.length + 1) 0 = some position → position ≠ 0 →
    position < bounds.finish →
    piece content position (min (position + mark.length) bounds.finish) ≠ mark

theorem checkFirstRecord_ensures (records : PlannedRecords) (bounds : ByteRange) (mark : Bytes) :
    Leaves (checkFirstRecord records bounds mark) out
      (fun _ t => Wrote layout out [] t ∧ FirstRecordOk records out.source.content bounds mark) := by
  unfold checkFirstRecord
  by_cases hskip : bounds.start ≠ 0 ∨ mark.isEmpty = true
  · rw [if_pos hskip]
    refine .pure ⟨h.refl, fun hstart hmark => ?_⟩
    rcases hskip with hne | hempty
    · exact absurd hstart hne
    · exact absurd (isEmpty_iff.mp hempty) hmark
  · rw [if_neg hskip]
    cases hfirst : firstCopied records (records.entries.length + 1) 0 with
    | none =>
      refine .pure ⟨h.refl, fun _ _ position hposition => ?_⟩
      rw [hfirst] at hposition
      cases hposition
    | some position =>
      dsimp only
      by_cases hnone : position = 0 ∨ position ≥ bounds.finish
      · rw [if_pos hnone]
        refine .pure ⟨h.refl, fun _ _ position' hposition hne hlt => ?_⟩
        rw [hfirst] at hposition
        cases hposition
        omega
      · rw [if_neg hnone]
        refine (read_ensures h _ _).next ?_
        rintro bytes t ⟨hread, rfl, -⟩
        split_ifs with hmark
        · exact .throw trivial
        · refine .pure ⟨hread, fun _ _ position' hposition _ _ => ?_⟩
          rw [hfirst] at hposition
          cases hposition
          exact hmark

/-- A source that ends inside a code unit is rewritten only together with its
final record. -/
def WholeUnless (layout : Layout) (plan : Plan) (bounds : ByteRange) : Prop :=
  (bounds.finish - bounds.start) % layout.width.size ≠ 0 →
    (plan.records.entries = [] ∧ plan.insertedAtEnd = [] ∧ plan.appended = none) ∨
    plan.finalRecordIs bounds (fun action => decide (action ≠ .keep)) = true

/-- **The checks.** Nothing is written, the records get their terminators, and
what the checks are for holds. -/
theorem checkBeforeWriting_ensures (plan : Plan) (bounds : ByteRange)
    (mark : Bytes) (hbounds : ∀ entry ∈ plan.records.entries, bounds.start ≤ entry.1) :
    Leaves (checkBeforeWriting layout plan bounds mark) out
      (fun result t => Wrote layout out [] t ∧ ∃ checked,
        result = { plan with records := checked } ∧
        Checked layout out.source.content plan.records checked ∧
        WholeUnless layout plan bounds ∧
        FirstRecordOk checked out.source.content bounds mark) := by
  unfold checkBeforeWriting
  dsimp only
  split
  · exact .stop
  next hwhole =>
    refine (checkRecords_ensures bounds plan.records.entries plan.records out h
      plan.records.sorted hbounds).next ?_
    rintro checked t ⟨hrecords, hchecked⟩
    refine (checkFirstRecord_ensures hrecords.tracks checked bounds mark).next ?_
    rintro _ u ⟨hfirst, hok⟩
    rw [hrecords.content] at hok
    refine .pure ⟨hrecords.trans hfirst, checked, rfl, fun k => ?_, fun hhalf => ?_, hok⟩
    · cases hget : plan.records.get? k with
      | none =>
        rw [(hchecked k).2, hget]
        · rfl
        · rintro ⟨k', record⟩ hmem rfl
          rw [plan.records.mem_entries_iff, hget] at hmem
          cases hmem
      | some record => exact (hchecked k).1 record ((plan.records.mem_entries_iff _ _).mpr hget)
    · by_contra hnot
      obtain ⟨hedits, hfinal⟩ := not_or.mp hnot
      refine hwhole ?_
      rw [decide_eq_true hhalf, Bool.eq_false_iff.mpr hfinal]
      simp only [Bool.true_and, Bool.not_false, Bool.and_true, Bool.or_eq_true,
        Bool.not_eq_true', isEmpty_eq_false_iff]
      by_contra hnone
      simp only [not_or, not_not, Option.not_isSome_iff_eq_none] at hnone
      exact hedits ⟨hnone.1.1, hnone.1.2, hnone.2⟩

/-! ## Terminators of inserted records -/

variable {reader : PagedReader}

theorem onReader_ensures {α : Type} {m : ReaderM α} {Q : α → Prop}
    (hm : Leaves m { reader with source := out.source }
      (fun a t => t.source.content = out.source.content ∧ Q a)) :
    Leaves (onReader reader m) out (fun result t => Wrote layout out [] t ∧ Q result.1) := by
  unfold Leaves Ensures at hm ⊢
  unfold onReader
  cases hrun : m { reader with source := out.source } with
  | ok a t =>
    rw [hrun] at hm
    exact ⟨⟨(append_nil _).symm, hm.1, ⟨h.written, h.last⟩⟩, hm.2⟩
  | error e t => trivial

/-- What `firstTerminator` does with the first record. -/
def terminatorOfFirst (layout : Layout) : Option Record → OutputM Bytes
  | some record => do
    let terminator ← terminatorOfRange layout ⟨record.start, record.finish⟩
    pure (if terminator.isEmpty then layout.width.unitBytes lineFeed else terminator)
  | none => do
    let terminator ← pure []
    pure (if terminator.isEmpty then layout.width.unitBytes lineFeed else terminator)

omit h in
/-- The first record of the source, the header included, gives the
terminator. -/
theorem firstTerminator_ensures (h : Tracks reader.layout out) (hindexed : reader.Indexed)
    (hcontent : reader.source.content = out.source.content) (hpage : reader.options.pageSize = 1) :
    Leaves (firstTerminator reader.layout reader) out
      (fun terminator t => Wrote reader.layout out [] t ∧ terminator =
        fallbackTerminator reader.layout
          (allRaw reader.dialect reader.layout out.source.content)) := by
  set raws := allRaw reader.dialect reader.layout out.source.content with hraws
  have htotal := mark_add_flatten reader.dialect reader.layout out.source.content
  -- from the first record on
  have hrest : ∀ (t : Output), Wrote reader.layout out [] t →
      Leaves (terminatorOfFirst reader.layout
          (allRecords reader.dialect reader.layout out.source.content).head?) t
        (fun terminator u => Wrote reader.layout out [] u ∧
          terminator = fallbackTerminator reader.layout raws) := by
    intro t ht
    unfold allRecords
    rw [← hraws]
    cases hall : raws with
    | nil => exact .bind (.pure (.pure ⟨ht, rfl⟩))
    | cons raw rest =>
      have hpiece := piece_of_rawRecords (hraws.symm.trans hall)
      rw [← hraws, hall, flatten_cons, length_append] at htotal
      refine (terminatorOfRange_ensures ht.tracks
        ⟨markLength reader.dialect.encoding out.source.content,
          markLength reader.dialect.encoding out.source.content + raw.length⟩
        (by rw [ht.content]; dsimp only; omega)).next ?_
      rintro terminator u ⟨hu, rfl⟩
      refine .pure ⟨ht.trans hu, ?_⟩
      rw [ht.content, hpiece.1]
      rfl
  have hheader := hindexed.header
  rw [hcontent] at hheader
  unfold firstTerminator
  cases hcase : reader.header with
  | some header =>
    have hfirst : (allRecords reader.dialect reader.layout out.source.content).head? =
        some header := by
      rw [← header_append_data, ← hheader, hcase]
      rfl
    have := hrest out h.refl
    rw [hfirst] at this
    exact .bind (.pure this)
  | none =>
    have hmoved : reader.Unmoved { reader with source := out.source } :=
      ⟨out.source, hcontent.symm, rfl⟩
    have hread : Leaves (PagedReader.readPage 0) { reader with source := out.source }
        (fun page t => t.source.content = out.source.content ∧ page.records.head? =
          (allRecords reader.dialect reader.layout out.source.content).head?) := by
      refine (PagedReader.readPage_ensures (hindexed.of_unmoved hmoved) 0).imp ?_
      rintro page t ⟨-, hview, rfl⟩
      refine ⟨hview.content, ?_⟩
      rw [← header_append_data, ← hheader, hcase]
      simp only [PagedReader.pageSpec, hpage, Nat.zero_mul, drop_zero, Option.toList_none,
        nil_append]
      cases dataRecords reader.dialect reader.layout out.source.content <;> rfl
    refine (onReader_ensures h hread).next ?_
    rintro ⟨page, r⟩ t ⟨hwrote, hhead⟩
    have := hrest t hwrote
    rwa [← hhead] at this

/-- What the records inserted at the end add to the output. -/
def atEndBytes (layout : Layout) (data fallback : Bytes) (finalRecordDeleted : Bool)
    (inserted : List Bytes) : Bytes :=
  if inserted.isEmpty then []
  else if (terminatorOf layout data).isEmpty then
    (if data ≠ [] ∧ finalRecordDeleted = false then fallback else []) ++
      (inserted.map (· ++ fallback)).flatten
  else (inserted.map (· ++ terminatorOf layout data)).flatten

theorem writeAtEnd_ensures {m : ℕ} (hm : m ≤ out.source.content.length)
    (finalRecordDeleted : Bool) (fallback : Bytes) (inserted : List Bytes) :
    Leaves (writeAtEnd layout ⟨m, out.source.content.length⟩ finalRecordDeleted fallback inserted)
      out
      (fun _ t => Wrote layout out
        (atEndBytes layout (out.source.content.drop m) fallback finalRecordDeleted inserted) t) := by
  have hpiece : piece out.source.content m out.source.content.length =
      out.source.content.drop m := by
    rw [piece, take_of_length_le (length_drop ..).le]
  have hinsert : ∀ (terminator : Bytes) (t : Output), Tracks layout t →
      Leaves (writeInserted layout terminator terminator inserted) t
        (fun _ u => Wrote layout t (inserted.map (· ++ terminator)).flatten u) := by
    intro terminator t ht
    have := writeInserted_ensures terminator terminator inserted t ht
    rwa [ite_self] at this
  unfold writeAtEnd atEndBytes
  by_cases hinserted : inserted.isEmpty = true
  · rw [if_pos hinserted, if_pos hinserted]
    exact .pure h.refl
  · rw [if_neg hinserted, if_neg hinserted]
    refine (terminatorOfRange_ensures h ⟨m, out.source.content.length⟩ le_rfl).next ?_
    rintro terminator t ⟨hread, rfl⟩
    rw [hpiece]
    by_cases hterm : (terminatorOf layout (out.source.content.drop m)).isEmpty = true
    · rw [if_pos hterm, if_pos hterm]
      have hdata : out.source.content.drop m ≠ [] ↔ m < out.source.content.length := by
        rw [ne_eq, drop_eq_nil_iff]
        omega
      by_cases hfinal : m < out.source.content.length ∧ finalRecordDeleted = false
      · rw [if_pos hfinal, if_pos ⟨hdata.mpr hfinal.1, hfinal.2⟩]
        refine (write_ensures hread.tracks fallback).next ?_
        intro _ u hfallback
        refine (hinsert fallback u hfallback.tracks).imp ?_
        intro _ v hrest
        exact (hread.trans hfallback).trans hrest
      · rw [if_neg hfinal, if_neg fun hboth => hfinal ⟨hdata.mp hboth.1, hboth.2⟩]
        exact (hinsert fallback t hread.tracks).imp fun _ v hrest => hread.trans hrest
    · rw [if_neg hterm, if_neg hterm]
      exact (hinsert _ t hread.tracks).imp fun _ v hrest => hread.trans hrest

/-- The mark is copied as it is. -/
theorem copyMark_ensures (hwindow : 0 < windowSize) (hempty : out.sink.bytes = []) (m : ℕ) :
    Leaves (copy layout windowSize ⟨0, m⟩) out
      (fun _ t => Wrote layout out (out.source.content.take m) t) := by
  refine (copy_ensures hwindow h ⟨0, m⟩).imp ?_
  rintro _ t ⟨added, ht, hadded⟩
  rw [hempty, copied_of_not_return (endsWithReturn_nil _), piece, drop_zero, Nat.sub_zero] at hadded
  cases hadded
  exact ht

omit h

/-- The insertions at the end and the flush, after `written`. -/
theorem writeEnd_ensures {t : Output} {written : Bytes} (ht : Wrote layout out written t)
    (hempty : out.sink.bytes = []) {m : ℕ} (hm : m ≤ out.source.content.length)
    (finalRecordDeleted : Bool) (fallback : Bytes) (inserted : List Bytes) :
    Leaves (do
      writeAtEnd layout ⟨m, out.source.content.length⟩ finalRecordDeleted fallback inserted
      flush) t
      (fun _ u => u.sink.bytes = written ++
        atEndBytes layout (out.source.content.drop m) fallback finalRecordDeleted inserted) := by
  have hatEnd := writeAtEnd_ensures ht.tracks (ht.content ▸ hm) finalRecordDeleted fallback inserted
  rw [ht.content] at hatEnd
  refine Ensures.next hatEnd ?_
  intro _ u hu
  have hbytes := (ht.trans hu).bytes
  rw [hempty, nil_append] at hbytes
  unfold Leaves Ensures flush
  split_ifs
  · trivial
  · exact hbytes

end Output

/-! ## The whole save -/

section Save

variable {dialect : Dialect} {layout : Layout} {content : Bytes}

theorem mem_recordsFrom {encoding : Encoding} {record : Record} : ∀ {raws : List Bytes} {start : ℕ},
    record ∈ recordsFrom layout encoding start raws →
    ∃ raw, IsRecordAt start raws record.start raw ∧ record.finish = record.start + raw.length := by
  intro raws
  induction raws with
  | nil =>
    intro start h
    cases h
  | cons raw rest ih =>
    intro start h
    rcases mem_cons.mp h with rfl | hrest
    · exact ⟨raw, isRecordAt_cons.mpr (.inl ⟨rfl, rfl⟩), rfl⟩
    · obtain ⟨raw', hraw, hfinish⟩ := ih hrest
      exact ⟨raw', isRecordAt_cons.mpr (.inr hraw), hfinish⟩

/-- The bytes at a record's place are the record's. -/
theorem IsRecordAt.piece {m k : ℕ} {raw : Bytes}
    (h : IsRecordAt m (rawRecords layout (content.drop m)) k raw) :
    piece content k (k + raw.length) = raw := by
  obtain ⟨before, after, hrecords, rfl⟩ := h
  have hflatten := rawRecords_flatten layout (content.drop m)
  rw [hrecords, flatten_append, flatten_cons] at hflatten
  rw [Delimited.piece, Nat.add_sub_cancel_left, ← drop_drop, ← hflatten, drop_left, take_left]

theorem mark_not_return (h : Layout.forDialect dialect = .ok layout) :
    endsWithReturn layout (content.take (markLength dialect.encoding content)) = false := by
  have hwidth := (forDialect_ok h).1
  unfold markLength
  split_ifs with hmark
  · obtain ⟨-, hprefix⟩ := Bool.and_eq_true_iff.mp hmark
    rw [List.isPrefixOf_iff_prefix] at hprefix
    rw [← prefix_iff_eq_take.mp hprefix]
    unfold endsWithReturn
    rw [hwidth]
    cases hkind : dialect.encoding.kind <;>
      simp only [byteOrderMark, Encoding.width, hkind] <;> decide
  · rw [take_zero]
    exact endsWithReturn_nil layout

/-- Every range of the edits is the byte range of a record of the source. -/
def EditSet.NamesRecords (edits : EditSet) (dialect : Dialect) (layout : Layout) (content : Bytes) :
    Prop :=
  ∀ range ∈ edits.ranges, ∃ record ∈ allRecords dialect layout content,
    range = ⟨record.start, record.finish⟩

variable {edits : EditSet}

theorem EditSet.NamesRecords.isRecordAt (h : edits.NamesRecords dialect layout content)
    {range : ByteRange} (hrange : range ∈ edits.ranges) :
    ∃ raw, IsRecordAt (markLength dialect.encoding content) (allRaw dialect layout content)
      range.start raw ∧ range.finish = range.start + raw.length := by
  obtain ⟨record, hrecord, rfl⟩ := h range hrange
  exact mem_recordsFrom hrecord

/-- The start of the header. -/
def headerStartOf (dialect : Dialect) (layout : Layout) (content : Bytes) : Option ℕ :=
  (headerRecord dialect layout content).map Record.start

/-- How the records of the source are written under the plan. -/
def emissionOf (dialect : Dialect) (layout : Layout) (content : Bytes) (edits : EditSet)
    (plan : Plan) (checked : PlannedRecords) : Emission where
  layout := layout
  plan := checked.get?
  appended := plan.appended
  headerStart := headerStartOf dialect layout content
  fallback := if edits.insertions.isEmpty then []
    else fallbackTerminator layout (allRaw dialect layout content)

/-- What a successful save went through, and the bytes it wrote. -/
structure Saved (dialect : Dialect) (edits : EditSet) (content output : Bytes) (layout : Layout)
    (plan : Plan) (checked : PlannedRecords) (outs : List Bytes) : Prop where
  forDialect : Layout.forDialect dialect = .ok layout
  planned : PlanFor edits ⟨layout, dialect.encoding⟩ (headerStartOf dialect layout content) plan
  terminators : Output.Checked layout content plan.records checked
  whole : Output.WholeUnless layout plan ⟨markLength dialect.encoding content, content.length⟩
  first : Output.FirstRecordOk checked content
    ⟨markLength dialect.encoding content, content.length⟩ (byteOrderMark dialect.encoding)
  emitted : (emissionOf dialect layout content edits plan checked).emit
    (allRaw dialect layout content) (markLength dialect.encoding content)
    (content.take (markLength dialect.encoding content)) = some outs
  output : output = content.take (markLength dialect.encoding content) ++ outs.flatten ++
    Output.atEndBytes layout (content.drop (markLength dialect.encoding content))
      (emissionOf dialect layout content edits plan checked).fallback
      (plan.finalRecordIs ⟨markLength dialect.encoding content, content.length⟩
        fun action => decide (action = .delete))
      plan.insertedAtEnd

/-- The emission of a save. -/
abbrev Saved.emission {dialect : Dialect} {edits : EditSet} {content output : Bytes} {layout : Layout}
    {plan : Plan} {checked : PlannedRecords} {outs : List Bytes}
    (_ : Saved dialect edits content output layout plan checked outs) : Emission :=
  emissionOf dialect layout content edits plan checked

/-- The checked plan is one of the source's records. -/
theorem follows_of_checked {plan : Plan} {checked : PlannedRecords}
    (hplanned : PlanFor edits ⟨layout, dialect.encoding⟩ (headerStartOf dialect layout content) plan)
    (hnames : edits.NamesRecords dialect layout content)
    (hchecked : Output.Checked layout content plan.records checked) :
    (emissionOf dialect layout content edits plan checked).Follows
      (markLength dialect.encoding content) (allRaw dialect layout content) checked.entries := by
  refine ⟨checked.sorted, fun k record hmem => ?_, fun k _ record => ?_⟩
  · rw [checked.mem_entries_iff, hchecked k] at hmem
    obtain ⟨planned, hplan, rfl⟩ := Option.map_eq_some_iff.mp hmem
    obtain ⟨raw, hraw, hfinish⟩ := hnames.isRecordAt (hplanned.named k planned hplan)
    refine ⟨raw, hraw, hfinish, ?_⟩
    dsimp only at hfinish ⊢
    rw [hfinish, hraw.piece]
    rfl
  · exact (checked.mem_entries_iff k record).symm

/-- An `Output` before anything is written. -/
def Output.fresh (source : Source) (refuses : ℕ → Bool) : Output := ⟨source, ⟨[], refuses, 0⟩, [], 0⟩

/-- The reader of `write_edited`: it shows the bytes to be saved, a record a page. -/
structure PagedReader.OpenedOn (reader : PagedReader) (dialect : Dialect) (content : Bytes) :
    Prop where
  indexed : reader.Indexed
  content_eq : reader.source.content = content
  dialect_eq : reader.dialect = dialect
  layout_ok : Layout.forDialect dialect = .ok reader.layout
  page_eq : reader.options.pageSize = 1

namespace PagedReader.OpenedOn

variable {reader : PagedReader} (h : reader.OpenedOn dialect content)
include h

theorem length_eq : reader.length = content.length := by rw [h.indexed.length, h.content_eq]

theorem mark_eq : reader.byteOrderMarkLength = markLength dialect.encoding content := by
  rw [h.indexed.mark, h.content_eq, h.dialect_eq]

theorem header_eq :
    reader.header.map Record.start = headerStartOf dialect reader.layout content := by
  rw [h.indexed.header, h.content_eq, h.dialect_eq]
  rfl

end PagedReader.OpenedOn

section Opened

open Output

variable {reader : PagedReader} {out : Output}
  (hopened : reader.OpenedOn dialect out.source.content) (htracks : Tracks reader.layout out)
include hopened htracks

/-- The fallback terminator is the emission's, and reading it writes nothing. -/
theorem fallback_ensures (edits : EditSet) (plan : Plan) (checked : PlannedRecords) :
    Leaves (if edits.insertions.isEmpty = true then pure []
        else firstTerminator reader.layout reader) out
      (fun fallback t => Wrote reader.layout out [] t ∧ fallback =
        (emissionOf dialect reader.layout out.source.content edits plan checked).fallback) := by
  unfold emissionOf
  dsimp only
  split_ifs with hinsertions
  · exact Ensures.pure ⟨htracks.refl, rfl⟩
  · have hfirst := firstTerminator_ensures htracks hopened.indexed hopened.content_eq
      hopened.page_eq
    rwa [hopened.dialect_eq] at hfirst

theorem writeOpened_ensures {windowSize : ℕ} (hwindow : 0 < windowSize)
    (hempty : out.sink.bytes = [])
    (hnames : edits.NamesRecords dialect reader.layout out.source.content) :
    Leaves (writeOpened dialect edits windowSize reader) out (fun _ t => ∃ plan checked outs,
        Saved dialect edits out.source.content t.sink.bytes reader.layout plan checked outs) := by
  have hlayout := hopened.layout_ok
  set content := out.source.content with hcontentDef
  set m := markLength dialect.encoding content with hm
  have hmle : m ≤ content.length := markLength_le dialect.encoding content
  unfold writeOpened
  dsimp only
  rw [hopened.length_eq, hopened.mark_eq, hopened.header_eq]
  split
  · exact Ensures.stop
  cases hbuild : Plan.build edits ⟨reader.layout, dialect.encoding⟩ ⟨m, content.length⟩
      (headerStartOf dialect reader.layout content) with
  | error e => exact Ensures.stop
  | ok plan =>
    have hplanned := Plan.build_ok (forDialect_ok hlayout).1 hbuild
    have hbounds : ∀ entry ∈ plan.records.entries, m ≤ entry.1 := by
      rintro ⟨k, record⟩ hmem
      rw [plan.records.mem_entries_iff] at hmem
      obtain ⟨raw, hraw, -⟩ := hnames.isRecordAt (hplanned.named k record hmem)
      exact hraw.le
    refine (Ensures.pure ?_).bind
    refine (checkBeforeWriting_ensures htracks plan ⟨m, content.length⟩
      (byteOrderMark dialect.encoding) hbounds).next ?_
    rintro _ t ⟨hcheck, checked, rfl, hchecked, hwhole, hfirst⟩
    set e := emissionOf dialect reader.layout content edits plan checked with he
    have hfallback := fallback_ensures (by rw [hcheck.content]; exact hopened) hcheck.tracks
      edits plan checked
    rw [hcheck.content] at hfallback
    refine Ensures.next_ite hfallback ?_
    rintro _ u ⟨hu, rfl⟩
    have hsofar := hcheck.trans hu
    have hucontent : u.source.content = content := hsofar.content
    have huempty : u.sink.bytes = [] := by rw [hsofar.bytes, hempty]; rfl
    -- the records, whichever way they are written, and then the insertions at the end
    have hend : ∀ (outs : List Bytes) (v : Output),
        e.emit (allRaw dialect reader.layout content) m (content.take m) = some outs →
        Wrote reader.layout out (content.take m ++ outs.flatten) v →
        Leaves (do
          writeAtEnd reader.layout ⟨m, content.length⟩
            (plan.finalRecordIs ⟨m, content.length⟩ fun action => decide (action = .delete))
            e.fallback plan.insertedAtEnd
          flush) v
          (fun _ w => ∃ plan checked outs,
            Saved dialect edits content w.sink.bytes reader.layout plan checked outs) :=
      fun outs v hemit hv => (writeEnd_ensures hv hempty hmle _ _ _).imp fun _ w hbytes =>
        ⟨plan, checked, outs, hlayout, hplanned, hchecked, hwhole, hfirst, hemit, hbytes⟩
    dsimp only
    cases happended : plan.appended with
    | some appended =>
      refine (copyMark_ensures hsofar.tracks hwindow huempty m).next ?_
      rintro _ v hv
      rw [hucontent] at hv
      have hvcontent : v.source.content = content := hv.content.trans hucontent
      have hvbytes : v.sink.bytes = content.take m := by rw [hv.bytes, huempty]; rfl
      have hrecords := writeByRecord_ensures hwindow e happended hv.tracks reader
        (by rw [hopened.length_eq, hvcontent]) (by rw [hopened.mark_eq, hvcontent]; exact hmle)
        checked fun k => rfl
      rw [hvcontent, hopened.mark_eq, hvbytes] at hrecords
      refine Ensures.next hrecords ?_
      rintro _ w ⟨outs, hemit, hw⟩
      exact hend outs w hemit (by simpa using (hsofar.trans hv).trans hw)
    | none =>
      have hrecords := writeByRange_ensures hwindow e happended hsofar.tracks huempty
        (hucontent ▸ hmle) (by rw [hucontent]; exact mark_not_return hlayout) checked
        (by rw [hucontent]; exact follows_of_checked hplanned hnames hchecked)
      rw [hucontent] at hrecords
      refine Ensures.next hrecords ?_
      rintro _ w ⟨outs, hemit, hw⟩
      exact hend outs w hemit (by simpa using hsofar.trans hw)

end Opened

/-- **A successful save.** -/
theorem writeEdited_ensures {windowSize : ℕ} (hwindow : 0 < windowSize) (source : Source)
    (refuses : ℕ → Bool) (hlayout : Layout.forDialect dialect = .ok layout)
    (hnames : edits.NamesRecords dialect layout source.content) :
    Leaves (writeEdited dialect edits windowSize hwindow) (Output.fresh source refuses)
      (fun _ t => ∃ plan checked outs,
        Saved dialect edits source.content t.sink.bytes layout plan checked outs) := by
  refine (Ensures.get ?_).bind
  cases hopen : PagedReader.openReader (Output.fresh source refuses).source dialect
      ⟨1, windowSize, Nat.one_pos, hwindow⟩ with
  | error e => exact .throw trivial
  | ok reader =>
    obtain ⟨hindexed, hcontent, hdialect, hopened, hoptions⟩ := PagedReader.indexed_open hopen
    obtain rfl : layout = reader.layout := Except.ok.inj (hlayout.symm.trans hopened)
    have hsource : reader.source.content = source.content := hcontent
    rw [← hsource] at hnames ⊢
    exact writeOpened_ensures ⟨hindexed, rfl, hdialect, hlayout, by rw [hoptions]⟩
      ⟨rfl, drop_nil.symm⟩ hwindow rfl hnames

end Save

end Dbflux.Delimited

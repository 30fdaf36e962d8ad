import Dbflux.Delimited.ReaderPages

/-!
# Invalidating the index after the source changed

`invalidate_from_offset` (`dbflux_delimited/src/reader.rs`, lines
787–809) keeps the page starts at or before the offset from which the source
changed. A kept start is still the start of a record only if the record in
front of it still ends there, and that can depend on bytes from the offset on.

Results:
* `readPage_succeeds`: over a source that answers every call, reads succeed.
* `view_of_seam`: header and records in front of a kept start survive the
  change when the record that ends at the start still ends there.
* `reload_agrees_iff`: after `invalidate_from_offset` the reader agrees with
  one opened afresh exactly when the change is a `SafeChange`.
-/

namespace Dbflux.Delimited

open Lib List

/-! ## Sources that answer every call -/

/-- The source answers every call in full. -/
def Source.Reliable (source : Source) : Prop := ∀ i, source.answers i = .ok

/-- `m` never fails on a reliable source of `content`. -/
def NeverFails {α : Type} (content : Bytes) (m : SourceM α) : Prop :=
  ∀ source : Source, source.Reliable → source.content = content →
    Ensures m source (fun _ t => t.Reliable ∧ t.content = content) (fun _ => False)

section SourceCalls

variable {content : Bytes}

theorem NeverFails.bind {α β : Type} {m : SourceM α} {f : α → SourceM β}
    (hm : NeverFails content m) (hf : ∀ a, NeverFails content (f a)) :
    NeverFails content (m >>= f) := fun source hreliable hcontent =>
  (hm source hreliable hcontent).andThen fun a t ht => hf a t ht.1 ht.2

theorem NeverFails.pure {α : Type} (a : α) : NeverFails content (Pure.pure a : SourceM α) :=
  fun _ hreliable hcontent => .pure ⟨hreliable, hcontent⟩

variable {length : ℕ}

theorem extend_neverFails (h : length ≤ content.length) (cursor : Cursor) (request : ℕ) :
    NeverFails content (extend length cursor request) := by
  intro source hreliable hcontent
  set finish := min (cursor.bufferEnd + request) length with hfinish
  have hread : Ensures (Source.readRange cursor.bufferEnd finish) source
      (fun bytes t => bytes.length = finish - cursor.bufferEnd ∧ t.Reliable ∧ t.content = content)
      (fun _ => False) := by
    unfold Ensures Source.readRange
    rw [hreliable]
    refine ⟨?_, hreliable, hcontent⟩
    simp only [Source.slice, length_take, length_drop, hcontent]
    omega
  refine hread.andThen ?_
  rintro bytes t ⟨hlength, ht⟩
  rw [if_neg (not_not.mpr hlength)]
  exact .pure ht

theorem nextRecord_neverFails (layout : Layout) (h : length ≤ content.length) (windowSize : ℕ)
    (cursor : Cursor) :
    NeverFails content (nextRecord layout length windowSize cursor) := by
  suffices hloop : ∀ (fuel request : ℕ) (cursor : Cursor),
      NeverFails content (nextRecordLoop layout length fuel request cursor) from hloop _ _ _
  intro fuel
  induction fuel with
  | zero => exact fun _ _ => .pure _
  | succ fuel ih =>
    intro request cursor
    simp only [nextRecordLoop]
    split_ifs
    · exact .pure _
    · exact (extend_neverFails h _ _).bind fun _ => ih _ _

theorem fetchMark_neverFails (h : length ≤ content.length) (windowSize mark : ℕ) :
    ∀ (fuel : ℕ) (cursor : Cursor),
      NeverFails content (PagedReader.fetchMark length windowSize mark fuel cursor) := by
  intro fuel
  induction fuel with
  | zero => exact fun _ => .pure _
  | succ fuel ih =>
    intro cursor
    simp only [PagedReader.fetchMark]
    split_ifs
    · exact (extend_neverFails h _ _).bind fun _ => ih _
    · exact .pure _

end SourceCalls

namespace PagedReader

/-- A reader over a reliable source, which it does not take to be longer than
it is. -/
structure Reliable (r : PagedReader) : Prop where
  source : r.source.Reliable
  length : r.length ≤ r.source.content.length

/-- `m` succeeds from every reliable reader, and leaves a reliable one. -/
def Succeeds {α : Type} (m : ReaderM α) : Prop :=
  ∀ r : PagedReader, Reliable r → Ensures m r (fun _ t => Reliable t) (fun _ => False)

variable {α : Type} {r : PagedReader}

theorem Succeeds.exists_ok {m : ReaderM α} (hm : Succeeds m) (hr : Reliable r) :
    ∃ a t, m r = .ok a t := by
  cases hrun : m r with
  | ok a t => exact ⟨a, t, rfl⟩
  | error e t => exact ((hm r hr).error hrun).elim

theorem Succeeds.bind {β : Type} {m : ReaderM α} {f : α → ReaderM β} (hm : Succeeds m)
    (hf : ∀ a, Succeeds (f a)) : Succeeds (m >>= f) := fun r hr =>
  (hm r hr).andThen hf

/-- A method that first looks at the reader's fields. -/
theorem Succeeds.get {f : PagedReader → ReaderM α}
    (hf : ∀ r, Reliable r → Ensures (f r) r (fun _ t => Reliable t) (fun _ => False)) :
    Succeeds (get >>= f) := fun r hr => (Ensures.get (hf r hr)).bind

theorem Succeeds.pure (a : α) : Succeeds (Pure.pure a : ReaderM α) :=
  fun _ hr => .pure hr

/-- Fields other than the source and its length can be set freely. -/
theorem Reliable.modify {g : PagedReader → PagedReader} {f : Unit → ReaderM α} (hr : Reliable r)
    (hf : Succeeds (f ())) (hg : (g r).source = r.source ∧ (g r).length = r.length) :
    Ensures (modify g >>= f) r (fun _ t => Reliable t) (fun _ => False) := by
  refine (Ensures.modify (hf (g r) ⟨?_, ?_⟩)).bind
  · rw [hg.1]
    exact hr.source
  · rw [hg.1, hg.2]
    exact hr.length

theorem onSource_succeeds {m : SourceM α} (hr : Reliable r) (hm : NeverFails r.source.content m) :
    Ensures (onSource m) r (fun _ t => Reliable t) (fun _ => False) :=
  Ensures.zoom ((hm r.source hr.source rfl).mono
    (fun _ t ht => ⟨ht.1, by rw [ht.2]; exact hr.length⟩) fun _ ht => ht)

theorem nextRecordAt_succeeds (cursor : Cursor) : Succeeds (nextRecordAt cursor) :=
  .get fun _ hr => onSource_succeeds hr (nextRecord_neverFails _ hr.length _ _)

theorem scanRecords_succeeds : ∀ (count : ℕ) (scan : PageScan), Succeeds (scanRecords count scan) := by
  intro count
  induction count with
  | zero => exact fun _ => .pure _
  | succ count ih =>
    intro scan
    refine .get fun r hr => (nextRecordAt_succeeds scan.cursor).bind ?_ r hr
    rintro ⟨found, cursor⟩
    cases found with
    | none => exact .pure _
    | some length => exact ih _

theorem scanPage_succeeds (page : ℕ) (cursor : Cursor) (kept : Option KeptBytes) :
    Succeeds (scanPage page cursor kept) := by
  refine .get fun r hr => (scanRecords_succeeds _ _).bind (fun scan => ?_) r hr
  intro r hr
  refine hr.modify (.get fun t ht => ?_) ⟨rfl, rfl⟩
  split_ifs
  · exact ht.modify (.pure _) ⟨rfl, rfl⟩
  · exact ht.modify (.pure _) ⟨rfl, rfl⟩
  · exact .pure ht

theorem skipPages_succeeds : ∀ (count skipped : ℕ) (cursor : Cursor),
    Succeeds (skipPages count skipped cursor) := by
  intro count
  induction count with
  | zero => exact fun _ _ => .pure _
  | succ count ih =>
    intro skipped cursor
    refine .get fun r hr => ?_
    split_ifs
    · exact .pure hr
    · exact (scanPage_succeeds _ _ _).bind (fun scan => ih _ _) r hr

theorem readPage_succeeds (page : ℕ) : Succeeds (readPage page) := by
  refine .bind (.get fun r hr => ?_) fun _ => .pure _
  by_cases hknown : page ≥ r.pageStarts.length ∧ r.totalRecords.isSome = true
  · rw [if_pos hknown]
    exact .pure hr
  · rw [if_neg hknown]
    refine hr.modify ?_ ⟨rfl, rfl⟩
    refine (skipPages_succeeds _ _ _).bind fun cursor => .get fun t ht => ?_
    split_ifs
    · refine (scanPage_succeeds _ _ _).bind (fun scan => ?_) t ht
      exact fun u hu => hu.modify (.pure _) ⟨rfl, rfl⟩
    · exact ht.modify (.pure _) ⟨rfl, rfl⟩

theorem readHeader_succeeds (cursor : Cursor) : Succeeds (readHeader cursor) := by
  refine .get fun r hr => ?_
  split_ifs
  · refine (nextRecordAt_succeeds cursor).bind ?_ r hr
    rintro ⟨found, c⟩
    cases found with
    | none => exact .pure _
    | some length => exact fun t ht => ht.modify (.pure _) ⟨rfl, rfl⟩
  · exact .pure hr

/-- Reading the length needs nothing of the length known so far. -/
theorem byteLength_reliable (hr : r.source.Reliable) : Ensures (onSource Source.byteLength) r
      (fun length t => t.source.Reliable ∧ length = t.source.content.length) (fun _ => False) := by
  refine .zoom ?_
  unfold Ensures Source.byteLength
  rw [hr]
  exact ⟨hr, rfl⟩

theorem prepare_reliable (hr : r.source.Reliable) :
    Ensures prepare r (fun _ t => Reliable t) (fun _ => False) := by
  refine (byteLength_reliable hr).andThen ?_
  rintro length t ⟨ht, rfl⟩
  have ht' : Reliable { t with length := t.source.content.length } := ⟨ht, le_rfl⟩
  refine (onSource_succeeds ht' (fetchMark_neverFails le_rfl _ _ _ _)).andThen fun cursor v hv => ?_
  refine hv.modify ?_ ⟨rfl, rfl⟩
  refine (readHeader_succeeds _).bind fun cursor => ?_
  exact fun w hw => .modify ⟨hw.source, hw.length⟩

end PagedReader

/-! ## The records in front of a kept start -/

/-- The bytes of the records in front of data record `k`, the header's
included. -/
def recordsBefore (dialect : Dialect) (layout : Layout) (content : Bytes) (k : ℕ) : List Bytes :=
  (headerRaw dialect layout content).toList ++ (dataRaw dialect layout content).take k

section Seam

variable {dialect : Dialect} {layout : Layout} {A B : Bytes}

theorem allRaw_eq_recordsBefore (content : Bytes) (k : ℕ) : allRaw dialect layout content =
      recordsBefore dialect layout content k ++ (dataRaw dialect layout content).drop k := by
  rw [recordsBefore, append_assoc, take_append_drop]
  unfold headerRaw dataRaw
  split_ifs
  · cases allRaw dialect layout content <;> rfl
  · rfl

/-- After the mark come the records in front of record `k`, then the rest. -/
theorem drop_mark_eq (dialect : Dialect) (layout : Layout) (content : Bytes) (k : ℕ) :
    content.drop (markLength dialect.encoding content) =
      (recordsBefore dialect layout content k).flatten ++
        content.drop (offsetOf dialect layout content k) := by
  rw [← rawRecords_flatten layout (content.drop (offsetOf dialect layout content k)),
    rawRecords_offsetOf, ← flatten_append, ← allRaw_eq_recordsBefore, allRaw,
    rawRecords_flatten]

theorem leads_recordsBefore (dialect : Dialect) (layout : Layout) (content : Bytes) (k : ℕ) :
    Leads layout (recordsBefore dialect layout content k)
      (content.drop (offsetOf dialect layout content k)) := by
  rw [Leads, ← drop_mark_eq, rawRecords_offsetOf, ← allRaw_eq_recordsBefore]
  rfl

variable {k : ℕ}

variable (hagree : B.take (offsetOf dialect layout A k) = A.take (offsetOf dialect layout A k))
include hagree

/-- The records in front of record `k` are still in place in a content that
agrees up to there. -/
theorem drop_mark_of_agree :
    B.drop (markLength dialect.encoding A) = (recordsBefore dialect layout A k).flatten ++
      B.drop (offsetOf dialect layout A k) := by
  set s := offsetOf dialect layout A k with hs
  have hle : markLength dialect.encoding A ≤ s := by
    rw [hs, offsetOf, dataStart, Nat.add_assoc]
    exact Nat.le_add_right _ _
  have hsplit : ∀ content : Bytes, content.take s = A.take s →
      content.drop (markLength dialect.encoding A) =
        (A.take s).drop (markLength dialect.encoding A) ++ content.drop s := by
    intro content hcontent
    conv_lhs => rw [← take_append_drop s content, hcontent]
    refine drop_append_of_le_length ?_
    rwa [length_take_of_le (hs ▸ offsetOf_le k)]
  have hA := drop_mark_eq dialect layout A k
  rw [hsplit A rfl, ← hs] at hA
  rw [hsplit B hagree, append_cancel_right hA]

variable (hmark : markLength dialect.encoding B = markLength dialect.encoding A)
include hmark

/-- The header and the records in front of record `k` survive the change when
the record that ends there still ends there. -/
theorem view_of_seam (hheader : dialect.hasHeader = true → headerRaw dialect layout A ≠ none)
    (hlast : ∀ p ∈ (recordsBefore dialect layout A k).getLast?,
      EndsBefore layout p (B.drop (offsetOf dialect layout A k))) :
    headerRaw dialect layout B = headerRaw dialect layout A ∧
      dataRaw dialect layout B = (dataRaw dialect layout A).take k ++
        rawRecords layout (B.drop (offsetOf dialect layout A k)) := by
  have hall : allRaw dialect layout B = recordsBefore dialect layout A k ++
      rawRecords layout (B.drop (offsetOf dialect layout A k)) := by
    rw [allRaw, hmark, drop_mark_of_agree hagree]
    exact (leads_recordsBefore dialect layout A k).replace hlast
  rw [recordsBefore, append_assoc] at hall
  by_cases hhas : dialect.hasHeader = true
  · obtain ⟨header, hraw⟩ := Option.ne_none_iff_exists'.mp (hheader hhas)
    rw [hraw, Option.toList_some, singleton_append] at hall
    constructor
    · rw [hraw, headerRaw, if_pos hhas, hall, head?_cons]
    · rw [dataRaw, if_pos hhas, hall, tail_cons]
  · have hraw : ∀ content, headerRaw dialect layout content = none := fun content => if_neg hhas
    rw [hraw, Option.toList_none, nil_append] at hall
    exact ⟨by rw [hraw, hraw], by rw [dataRaw, if_neg hhas, hall]⟩

omit hmark

omit hagree

end Seam

namespace PagedReader

/-! ## Changes after which the kept index is right -/

/-- The page starts `invalidate_from_offset` keeps. -/
def keptStarts (r : PagedReader) (offset : ℕ) : List ℕ :=
  r.pageStarts.takeWhile fun start => decide (start ≤ offset)

/-- The number of data records in front of the last kept page start. -/
def keptRecords (r : PagedReader) (offset : ℕ) : ℕ :=
  ((r.keptStarts offset).length - 1) * r.options.pageSize

/-- `invalidate_from_offset` reads the mark and the header again. -/
def Rereads (r : PagedReader) (offset : ℕ) (content : Bytes) : Prop :=
  offset = 0 ∨ offset < r.pageStarts.head?.getD 0 ∨ content.length ≤ r.pageStarts.head?.getD 0

/-- What is kept still fits the new content: the byte-order mark is the same,
a dialect with a header had one, and the record that ends at the last kept
page start still ends there in front of the bytes that follow it now. -/
structure SeamHolds (r : PagedReader) (offset : ℕ) (content : Bytes) : Prop where
  mark : markLength r.dialect.encoding content = r.byteOrderMarkLength
  header : r.dialect.hasHeader = true → r.header ≠ none
  ends : ∀ p ∈ (recordsBefore r.dialect r.layout r.source.content (r.keptRecords offset)).getLast?,
    EndsBefore r.layout p (content.drop (r.recordOffset (r.keptRecords offset)))

/-- A change of the content after which `invalidate_from_offset` is right. -/
def SafeChange (r : PagedReader) (offset : ℕ) (content : Bytes) : Prop :=
  r.Rereads offset content ∨ r.SeamHolds offset content

/-- The reader answers as one opened afresh over the same content. -/
def AgreesWithReopened (t : PagedReader) : Prop :=
  ∀ (source : Source) (fresh : PagedReader), source.content = t.source.content →
    openReader source t.dialect t.options = .ok fresh →
    t.header = fresh.header ∧ t.byteOrderMarkLength = fresh.byteOrderMarkLength ∧
    ∀ page result u result' u', readPage page t = .ok result u →
      readPage page fresh = .ok result' u' → result = result'

variable {r t : PagedReader}

theorem SameView.pageSpec (h : SameView r t) (page budget : ℕ) :
    t.pageSpec page budget = r.pageSpec page budget := by
  simp [PagedReader.pageSpec, firstRecordOf, h.pageRaw, h.content, h.dialect, h.layout, h.options]

/-- A right index gives the answers of a reader opened afresh. -/
theorem Indexed.agrees (h : Indexed t) (hlayout : Layout.forDialect t.dialect = .ok t.layout) :
    AgreesWithReopened t := by
  intro source fresh hcontent hopen
  obtain ⟨hfresh, hcontent', hdialect, hlayout', hoptions⟩ := indexed_open hopen
  have hview : SameView t fresh := ⟨hcontent'.trans hcontent, hdialect,
    Except.ok.inj (hlayout'.symm.trans hlayout), hoptions⟩
  refine ⟨?_, ?_, ?_⟩
  · rw [h.header, hfresh.header, hview.content, hview.dialect, hview.layout]
  · rw [h.mark, hfresh.mark, hview.content, hview.dialect]
  · intro page result u result' u' hread hread'
    rw [((readPage_ensures h page).ok hread).2.2, ((readPage_ensures hfresh page).ok hread').2.2,
      hview.pageSpec]

/-! ## What `invalidate_from_offset` does -/

/-- The reader with the part of the index that is kept. -/
def keep (r : PagedReader) (offset : ℕ) : PagedReader :=
  { r with
    length := r.source.content.length
    pageStarts := r.keptStarts offset
    indexedRecords := r.firstRecordOf ((r.keptStarts offset).length - 1)
    totalRecords := none
    cursor := Cursor.atOffset 0 }

theorem invalidateFromOffset_ensures (r : PagedReader) (offset : ℕ) :
    Leaves (invalidateFromOffset offset) r
      (fun _ t => (r.Rereads offset r.source.content ∧ Indexed t ∧ SameView r t) ∨
        (¬ r.Rereads offset r.source.content ∧ Unmoved (r.keep offset) t)) := by
  refine (Ensures.get ?_).bind
  by_cases hinside : offset = 0 ∨ offset < r.pageStarts.head?.getD 0
  · rw [if_pos hinside]
    exact (prepare_ensures r).mono
      (fun _ t ht => Or.inl ⟨hinside.imp_right Or.inl, ht⟩) fun _ _ => trivial
  · rw [if_neg hinside]
    refine (onSource_ensures (byteLength_ensures r.source)).next ?_
    rintro length t ⟨⟨source, hsource, rfl⟩, rfl⟩
    by_cases hshort : r.pageStarts.head?.getD 0 ≥ r.source.content.length
    · rw [if_pos hshort]
      refine (prepare_ensures _).mono (fun _ t ht => .inl ⟨.inr (.inr hshort), ht.1, ?_⟩)
        fun _ _ => trivial
      exact { ht.2 with content := ht.2.content.trans hsource }
    · rw [if_neg hshort]
      refine .modify (.inr ⟨?_, source, hsource, rfl⟩)
      unfold Rereads
      omega

theorem invalidateFromOffset_reliable (hr : r.source.Reliable) (offset : ℕ) :
    Ensures (invalidateFromOffset offset) r (fun _ t => Reliable t) (fun _ => False) := by
  refine (Ensures.get ?_).bind
  dsimp only
  split_ifs
  · exact prepare_reliable hr
  · refine (byteLength_reliable hr).andThen ?_
    rintro length t ⟨ht, rfl⟩
    split_ifs
    · exact prepare_reliable ht
    · exact Ensures.modify ⟨ht, le_rfl⟩

section Kept

variable {r : PagedReader} {offset : ℕ} {content : Bytes}

theorem Indexed.head_eq (h : Indexed r) :
    r.pageStarts.head? = some (dataStart r.dialect r.layout r.source.content) := by
  obtain ⟨s, rest, hstarts⟩ := exists_cons_of_ne_nil h.starts_ne
  have hzero := (h.starts 0 s (by rw [hstarts]; rfl)).1
  rw [Nat.zero_mul, recordOffset, offsetOf, take_zero, flatten_nil, length_nil,
    Nat.add_zero] at hzero
  rw [hstarts, head?_cons, hzero]

theorem keptStarts_getElem? {i s : ℕ} (h : (r.keptStarts offset)[i]? = some s) :
    r.pageStarts[i]? = some s ∧ s ≤ offset := by
  obtain ⟨hi, hs⟩ := List.getElem?_eq_some_iff.mp h
  refine ⟨?_, ?_⟩
  · obtain ⟨rest, hrest⟩ := takeWhile_prefix (l := r.pageStarts)
      fun start => decide (start ≤ offset)
    have hget : (r.keptStarts offset ++ rest)[i]? = r.pageStarts[i]? := congrArg (·[i]?) hrest
    rw [← hget, getElem?_append_left hi, h]
  · have hmem := mem_takeWhile_imp (hs ▸ getElem_mem hi)
    simpa using hmem

/-- Where the last kept page starts. -/
theorem Indexed.last_kept (h : Indexed r) (hkeep : ¬ r.Rereads offset content) :
    (r.keptStarts offset)[(r.keptStarts offset).length - 1]? =
      some (r.recordOffset (r.keptRecords offset)) ∧
    r.recordOffset (r.keptRecords offset) ≤ offset ∧ r.keptRecords offset ≤ r.count := by
  have hne : r.keptStarts offset ≠ [] := by
    obtain ⟨s, rest, hstarts⟩ := exists_cons_of_ne_nil h.starts_ne
    have hle : s ≤ offset := by
      unfold Rereads at hkeep
      rw [hstarts, head?_cons, Option.getD_some] at hkeep
      omega
    rw [keptStarts, hstarts, takeWhile_cons_of_pos (by simpa using hle)]
    exact cons_ne_nil _ _
  have hpos := length_pos_iff.mpr hne
  obtain ⟨s, hs⟩ : ∃ s, (r.keptStarts offset)[(r.keptStarts offset).length - 1]? = some s :=
    ⟨_, getElem?_eq_getElem (by omega)⟩
  obtain ⟨hstart, hle⟩ := keptStarts_getElem? hs
  obtain ⟨rfl, hcount⟩ := h.starts _ s hstart
  exact ⟨hs, hle, hcount⟩

theorem Indexed.agree_at_kept (h : Indexed r) (hkeep : ¬ r.Rereads offset content)
    (hagree : content.take offset = r.source.content.take offset) :
    content.take (offsetOf r.dialect r.layout r.source.content (r.keptRecords offset)) =
      r.source.content.take (offsetOf r.dialect r.layout r.source.content (r.keptRecords offset)) := by
  have hle : offsetOf r.dialect r.layout r.source.content (r.keptRecords offset) ≤ offset :=
    (h.last_kept hkeep).2.1
  have := congrArg (List.take (offsetOf r.dialect r.layout r.source.content (r.keptRecords offset)))
    hagree
  rwa [take_take, take_take, Nat.min_eq_left hle] at this

/-- Where the seam holds, the kept index is right for the new content. -/
theorem Indexed.keep (h : Indexed r) {source : Source} (hkeep : ¬ r.Rereads offset source.content)
    (hagree : source.content.take offset = r.source.content.take offset)
    (hseam : r.SeamHolds offset source.content) :
    Indexed (({ r with source := source } : PagedReader).keep offset) := by
  obtain ⟨hlast, hle, hcount⟩ := h.last_kept hkeep
  have hmark : markLength r.dialect.encoding source.content =
      markLength r.dialect.encoding r.source.content := hseam.mark.trans h.mark
  obtain ⟨hheader, hdata⟩ := view_of_seam (h.agree_at_kept hkeep hagree) hmark
    (fun hhas hnone => hseam.header hhas (by rw [h.header, headerRecord, hnone]; rfl)) hseam.ends
  have hstart : dataStart r.dialect r.layout source.content =
      dataStart r.dialect r.layout r.source.content := by
    rw [dataStart, dataStart, hmark, hheader]
  have htake : ∀ j ≤ r.keptRecords offset, (dataRaw r.dialect r.layout source.content).take j =
      (dataRaw r.dialect r.layout r.source.content).take j := by
    intro j hj
    rw [hdata, take_append_of_le_length, take_take, Nat.min_eq_left hj]
    rw [length_take]
    unfold count at hcount
    omega
  have hcount' : r.keptRecords offset ≤ (dataRaw r.dialect r.layout source.content).length := by
    rw [hdata, length_append, length_take]
    unfold count at hcount
    omega
  refine ⟨rfl, hseam.mark.symm, ?_, ?_, ?_, ?_, ?_, ?_, Cursor.reads_atOffset (Nat.zero_le _)⟩
  · show r.header = headerRecord r.dialect r.layout source.content
    rw [h.header, headerRecord, headerRecord, hheader, hmark]
  · show r.headerBytes = headerRaw r.dialect r.layout source.content
    rw [h.headerBytes, hheader]
  · rintro (hnil : r.keptStarts offset = [])
    rw [hnil] at hlast
    cases hlast
  · intro i s (hi : (r.keptStarts offset)[i]? = some s)
    have hlt := (List.getElem?_eq_some_iff.mp hi).1
    have hj : i * r.options.pageSize ≤ r.keptRecords offset :=
      Nat.mul_le_mul_right _ (by omega)
    refine ⟨?_, le_trans hj hcount'⟩
    rw [(h.starts i s (keptStarts_getElem? hi).1).1]
    show offsetOf r.dialect r.layout r.source.content (i * r.options.pageSize) =
      offsetOf r.dialect r.layout source.content (i * r.options.pageSize)
    rw [offsetOf, offsetOf, hstart, htake _ hj]
  · exact le_trans (Nat.min_le_left _ _) hcount'
  · intro n hn
    cases hn

end Kept

/-! ## Where the seam does not hold -/

/-- Reading an indexed page reads the records found from its start, whether or
not the index is right. -/
theorem readPage_of_start {page s : ℕ} (hlength : t.length = t.source.content.length)
    (hstart : t.pageStarts[page]? = some s) (hs : s ≤ t.source.content.length)
    (hcursor : t.cursor.Reads t.source.content) :
    Leaves (readPage page) t
      (fun result _ => result.records = recordsFrom t.layout t.dialect.encoding s
        ((rawRecords t.layout (t.source.content.drop s)).take t.options.pageSize)) := by
  have hlt := (List.getElem?_eq_some_iff.mp hstart).1
  have hnearest : min (t.pageStarts.length - 1) page = page := by omega
  have hscan : ∀ (c : Cursor) (u : PagedReader) (kept : KeptBytes), SameView t u →
      u.length = t.length → c.Reads t.source.content → c.offset = s →
      Leaves (scanPage page c (some kept)) u
        (fun scan _ => scan.records = recordsFrom t.layout t.dialect.encoding s
          ((rawRecords t.layout (t.source.content.drop s)).take t.options.pageSize)) := by
    intro c u kept hview hu hc hoffset
    refine (Ensures.get ?_).bind
    refine (scanRecords_ensures u.options.pageSize u _
      (by rw [hu, hlength, hview.content]) (by rw [hview.content]; exact hc)).next ?_
    rintro scan v ⟨-, -, hresult⟩
    have hrecords := (hresult _ rfl).2.2.1
    simp only [Option.isSome_some, if_true, nil_append, hoffset, hview.layout,
      hview.dialect, hview.content, hview.options] at hrecords
    refine .bind (.modify (.bind (.get ?_)))
    split_ifs
    · exact .bind (.modify (.pure hrecords))
    · exact .bind (.modify (.pure hrecords))
    · exact .pure hrecords
  refine (Ensures.bind (Ensures.get ?_)).bind
  dsimp only
  rw [if_neg (by omega), hnearest, hstart, Option.getD_some, Nat.sub_self]
  refine (Ensures.modify (Ensures.bind (Ensures.pure (Ensures.bind (Ensures.get ?_))))).bind
  rw [if_pos hlt]
  refine (hscan _ { t with cursor := Cursor.atOffset 0 } _ ⟨rfl, rfl, rfl, rfl⟩ rfl ?_ ?_).next ?_
  · split_ifs
    · exact Cursor.reads_atOffset hs
    · exact hcursor
  · split_ifs with hmoved
    · rfl
    · exact not_not.mp hmoved
  · intro scan u hrecords
    exact .bind (.modify (.pure (.pure hrecords)))

/-- A source that fails no read can be opened. -/
theorem openReader_reliable {source : Source} {dialect : Dialect} {layout : Layout}
    (hsource : source.Reliable) (hlayout : Layout.forDialect dialect = .ok layout)
    (options : ReaderOptions) :
    ∃ fresh, openReader source dialect options = .ok fresh ∧ Reliable fresh := by
  unfold openReader
  simp only [hlayout]
  split
  next u t hprepare => exact ⟨t, rfl, (prepare_reliable (by exact hsource)).ok hprepare⟩
  next e t hprepare => exact ((prepare_reliable (by exact hsource)).error hprepare).elim

/-- A source that goes on after its mark has a header, if the dialect says so. -/
theorem headerRecord_ne_none {dialect : Dialect} {layout : Layout} {content : Bytes}
    (hhas : dialect.hasHeader = true)
    (hlong : markLength dialect.encoding content < content.length) :
    headerRecord dialect layout content ≠ none := by
  have hne : allRaw dialect layout content ≠ [] := by
    intro hnil
    have := mark_add_flatten dialect layout content
    rw [hnil, flatten_nil, length_nil] at this
    omega
  obtain ⟨first, rest, hall⟩ := exists_cons_of_ne_nil hne
  rw [headerRecord, headerRaw, if_pos hhas, hall]
  exact Option.some_ne_none _

/-- If the reader that kept its index agrees with one opened afresh, the seam
holds. -/
theorem Indexed.seamHolds (h : Indexed r) {offset : ℕ}
    (hlayout : Layout.forDialect r.dialect = .ok r.layout) {source : Source}
    (hsource : source.Reliable) (hkeep : ¬ r.Rereads offset source.content)
    (hagree : source.content.take offset = r.source.content.take offset) {source' : Source}
    (hcontent' : source'.content = source.content)
    (ht : t = { ({ r with source := source } : PagedReader).keep offset with source := source' })
    (hreliable : Reliable t) (hagrees : AgreesWithReopened t) :
    r.SeamHolds offset source.content := by
  obtain ⟨hlast, hle, hcount⟩ := h.last_kept hkeep
  have hagree' := h.agree_at_kept hkeep hagree
  subst ht
  obtain ⟨fresh, hopen, hfreshReliable⟩ := openReader_reliable hsource hlayout r.options
  obtain ⟨hfresh, hfreshContent, hfreshDialect, hfreshLayout, hfreshOptions⟩ := indexed_open hopen
  have hfreshLayout := Except.ok.inj (hlayout.symm.trans hfreshLayout)
  obtain ⟨hsameHeader, hsameMark, hpages⟩ : r.header = fresh.header ∧
      r.byteOrderMarkLength = fresh.byteOrderMarkLength ∧ _ :=
    hagrees source fresh hcontent'.symm hopen
  rw [hfresh.header, hfreshContent, hfreshDialect, ← hfreshLayout] at hsameHeader
  rw [hfresh.mark, hfreshContent, hfreshDialect] at hsameMark
  have hmarks : markLength r.dialect.encoding source.content =
      markLength r.dialect.encoding r.source.content := hsameMark.symm.trans h.mark
  refine ⟨hsameMark.symm, fun hhas hnone => ?_, fun p hp => ?_⟩
  · have hraw : headerRaw r.dialect r.layout r.source.content = none := by
      have := h.header
      rw [hnone, headerRecord] at this
      exact Option.map_eq_none_iff.mp this.symm
    have hlong : dataStart r.dialect r.layout r.source.content < source.content.length := by
      unfold Rereads at hkeep
      rw [h.head_eq, Option.getD_some] at hkeep
      omega
    rw [dataStart, hraw, ← hmarks, Option.map_none, Option.getD_none, Nat.add_zero] at hlong
    exact headerRecord_ne_none hhas hlong (hsameHeader.symm.trans hnone)
  · set k := r.keptRecords offset with hk
    set s := r.recordOffset k with hs
    by_cases hend : source.content.drop s = []
    · have hleads := leads_recordsBefore r.dialect r.layout r.source.content k
      rw [hend]
      exact (hleads.endsBefore_of_boundary hleads rfl p hp).nil
    · -- if record `k` still starts at `s`, the record that ended there still does
      suffices hoffset : offsetOf r.dialect r.layout source.content k = s by
        have hB := drop_mark_eq r.dialect r.layout source.content k
        rw [hmarks, drop_mark_of_agree hagree', hoffset] at hB
        have hleads := leads_recordsBefore r.dialect r.layout source.content k
        rw [hoffset] at hleads
        exact (leads_recordsBefore r.dialect r.layout r.source.content k).endsBefore_of_boundary hleads
          (append_cancel_right hB).symm p hp
      -- the first record both readers return for the last kept page starts at `s`
      set lastPage := (r.keptStarts offset).length - 1 with hlastPage
      have hsle : s ≤ source.content.length := by
        by_contra hgt
        exact hend (drop_eq_nil_of_le (by omega))
      obtain ⟨result, u, hread⟩ := (readPage_succeeds lastPage).exists_ok hreliable
      obtain ⟨result', u', hread'⟩ := (readPage_succeeds lastPage).exists_ok hfreshReliable
      have hrecords := (readPage_of_start (congrArg List.length hcontent'.symm) hlast
        (hcontent'.symm ▸ hsle) (Cursor.reads_atOffset (Nat.zero_le _))).ok hread
      dsimp only [PagedReader.keep] at hrecords
      have hrecords' := ((readPage_ensures hfresh lastPage).ok hread').2.2
      rw [pageSpec_eq, recordOffset, hfreshContent, hfreshDialect, hfreshOptions, ← hfreshLayout]
        at hrecords'
      rw [hpages _ _ _ _ _ hread hread', hrecords', hcontent'] at hrecords
      obtain ⟨n, hn⟩ := recordLength_true_isSome r.layout hend
      rw [rawRecords_eq hn, take_cons r.options.pageSize_pos] at hrecords
      generalize fresh.pageRaw lastPage = raw at hrecords
      cases raw with
      | nil => cases hrecords
      | cons bytes rest => exact congrArg Record.start (List.cons.inj hrecords).1

/-! ## Runs -/

/-- What a caller does with a reader: read, or replace the source by one that
agrees with it before `offset` and invalidate from there. -/
inductive Use where
  | read (call : ReadCall) (result : ReadResult)
  | reload (source : Source) (offset : ℕ)

/-- One use of a reader. A reload is one whose `invalidate_from_offset`
succeeds. -/
def UseStep (r : PagedReader) : Use → PagedReader → Prop
  | .read c result, t => ExecStep call r (c, result) t
  | .reload source offset, t =>
    source.content.take offset = r.source.content.take offset ∧
      invalidateFromOffset offset { r with source := source } = .ok () t

/-- The reloads of a use are safe changes. -/
def SafeUse (r : PagedReader) : Use → Prop
  | .read _ _ => True
  | .reload source offset => r.SafeChange offset source.content

/-- A safe change leaves a right index. -/
theorem Indexed.reload (h : Indexed r) {source : Source} {offset : ℕ}
    (hagree : source.content.take offset = r.source.content.take offset)
    (hsafe : r.SafeChange offset source.content)
    (hrun : invalidateFromOffset offset { r with source := source } = .ok () t) :
    Indexed t ∧ t.dialect = r.dialect ∧ t.layout = r.layout ∧ t.options = r.options := by
  rcases (invalidateFromOffset_ensures { r with source := source } offset).ok hrun with
    ⟨-, ht, hview⟩ | ⟨hkeep, hmoved⟩
  · exact ⟨ht, hview.dialect, hview.layout, hview.options⟩
  · have hseam : r.SeamHolds offset source.content := hsafe.resolve_left hkeep
    have hview := hmoved.sameView
    exact ⟨(h.keep hkeep hagree hseam).of_unmoved hmoved, hview.dialect, hview.layout,
      hview.options⟩

/-- Readers that only saw safe changes have a right index. -/
theorem indexed_of_safe_run {r₀ : PagedReader} {trace : List Use} (h₀ : Indexed r₀)
    (hlayout : Layout.forDialect r₀.dialect = .ok r₀.layout)
    (hrun : Run (restrict UseStep SafeUse) r₀ trace r) :
    Indexed r ∧ Layout.forDialect r.dialect = .ok r.layout := by
  refine hrun.invariant (I := fun r => Indexed r ∧ Layout.forDialect r.dialect = .ok r.layout)
    ?_ ⟨h₀, hlayout⟩
  rintro r use t ⟨h, hlayout⟩ ⟨hstep, hsafe⟩
  cases use with
  | read c result =>
    obtain ⟨ht, hview, -⟩ := call_answers h hstep
    exact ⟨ht, by rw [hview.dialect, hview.layout]; exact hlayout⟩
  | reload source offset =>
    obtain ⟨ht, hdialect, hlayout', -⟩ := h.reload hstep.1 hsafe hstep.2
    exact ⟨ht, by rw [hdialect, hlayout']; exact hlayout⟩

/-- **Incremental re-reading agrees with re-opening exactly after safe
changes.** Take any reader that was opened and then used for reads, failed
or not, and for reloads that were safe. Replace its content by one that
agrees before `offset`. Then every successful `invalidate_from_offset`
leaves a reader with the header, the byte-order mark and the pages of a
reader opened afresh if and only if the change is safe. -/
theorem reload_agrees_iff {source : Source} {dialect : Dialect} {options : ReaderOptions}
    {r₀ r : PagedReader} {trace : List Use} (hopen : openReader source dialect options = .ok r₀)
    (hrun : Run (restrict UseStep SafeUse) r₀ trace r) {offset : ℕ} {content : Bytes}
    (hlt : content.length < 2 ^ 64)
    (hagree : content.take offset = r.source.content.take offset) :
    (∀ (source' : Source) (t : PagedReader), source'.content = content →
      invalidateFromOffset offset { r with source := source' } = .ok () t →
      AgreesWithReopened t) ↔ r.SafeChange offset content := by
  obtain ⟨h₀, -, hdialect₀, hlayout₀, -⟩ := indexed_open hopen
  rw [← hdialect₀] at hlayout₀
  obtain ⟨h, hlayout⟩ := indexed_of_safe_run h₀ hlayout₀ hrun
  constructor
  · intro hall
    by_cases hkeep : r.Rereads offset content
    · exact .inl hkeep
    · -- a source that answers every call shows whether the seam holds
      set source' : Source := ⟨content, fun _ => .ok, 0, hlt⟩ with hsource'
      have hreliable : source'.Reliable := fun _ => rfl
      cases hinv : invalidateFromOffset offset { r with source := source' } with
      | error e t => exact ((invalidateFromOffset_reliable hreliable offset).error hinv).elim
      | ok _ t =>
        rcases (invalidateFromOffset_ensures { r with source := source' } offset).ok hinv with
          ⟨hrereads, -, -⟩ | ⟨-, source'', hcontent, ht⟩
        · exact absurd hrereads hkeep
        · exact .inr (h.seamHolds hlayout hreliable hkeep hagree hcontent ht
            ((invalidateFromOffset_reliable hreliable offset).ok hinv) (hall source' t rfl hinv))
  · rintro hsafe source' t rfl hinv
    obtain ⟨ht, hdialect, hlayout', -⟩ := h.reload hagree hsafe hinv
    exact ht.agrees (by rw [hdialect, hlayout']; exact hlayout)

instance (r : PagedReader) (offset : ℕ) (content : Bytes) :
    Decidable (r.SafeChange offset content) :=
  have : Decidable (r.SeamHolds offset content) :=
    decidable_of_iff (markLength r.dialect.encoding content = r.byteOrderMarkLength ∧
      (r.dialect.hasHeader = true → r.header ≠ none) ∧
      ∀ p ∈ (recordsBefore r.dialect r.layout r.source.content (r.keptRecords offset)).getLast?,
        EndsBefore r.layout p (content.drop (r.recordOffset (r.keptRecords offset))))
      ⟨fun ⟨h1, h2, h3⟩ => ⟨h1, h2, h3⟩, fun ⟨h1, h2, h3⟩ => ⟨h1, h2, h3⟩⟩
  have : Decidable (r.Rereads offset content) := inferInstanceAs (Decidable (_ ∨ _ ∨ _))
  inferInstanceAs (Decidable (_ ∨ _))

/-- A source that answers every call with its bytes. -/
def plainSource (content : Bytes) (h : content.length < 2 ^ 64) : Source :=
  ⟨content, fun _ => .ok, 0, h⟩

/-- Header `h`, then `1` ended by a carriage return, then `2`. -/
def beforeReload : Source := plainSource [104, 10, 49, 13, 50, 10] (by decide)

/-- The same with a line feed inserted after the carriage return. -/
def afterReload : Source := plainSource [104, 10, 49, 13, 10, 50, 10] (by decide)

/-- Pages of one record. -/
def singleRecordPages : ReaderOptions := ⟨1, 64, by decide, by decide⟩

/-- Page 1 was read, so its start is kept. In the new content it is the second
half of a line break, and page 1 is an empty record in front of `2`. -/
theorem kept_start_inside_line_break :
    ∃ r₀ page r t, openReader beforeReload commaDialect singleRecordPages = .ok r₀ ∧
      readPage 1 r₀ = .ok page r ∧
      afterReload.content.take 4 = r.source.content.take 4 ∧
      invalidateFromOffset 4 { r with source := afterReload } = .ok () t ∧
      ¬ AgreesWithReopened t := by
  have heval : ∃ r₀ ∈ (openReader beforeReload commaDialect singleRecordPages).toOption,
      ∃ read ∈ outcome (readPage 1) r₀,
      ∃ reload ∈ outcome (invalidateFromOffset 4) { read.2 with source := afterReload },
      ∃ fresh ∈ (openReader afterReload reload.2.dialect reload.2.options).toOption,
      ∃ kept ∈ outcome (readPage 1) reload.2, ∃ reopened ∈ outcome (readPage 1) fresh,
        afterReload.content.take 4 = read.2.source.content.take 4 ∧
        afterReload.content = reload.2.source.content ∧ kept.1 ≠ reopened.1 := by
    decide +kernel
  obtain ⟨r₀, hopen, ⟨page, r⟩, hread, ⟨⟨⟩, t⟩, hreload, fresh, hfresh, ⟨kept, u⟩, hkept,
    ⟨reopened, u'⟩, hreopened, hagree, hcontent, hne⟩ := heval
  refine ⟨r₀, page, r, t, toOption_eq_some.mp hopen, outcome_eq_some.mp hread, hagree,
    outcome_eq_some.mp hreload, fun hagrees => hne ?_⟩
  obtain ⟨-, -, hpages⟩ := hagrees afterReload fresh hcontent (toOption_eq_some.mp hfresh)
  exact hpages 1 _ _ _ _ (outcome_eq_some.mp hkept) (outcome_eq_some.mp hreopened)

/-- A record appended after the line feed that ends the content is a safe
change for a reader that has read page 1. -/
theorem reload_after_appended_record :
    ∃ r₀ page r, openReader beforeReload commaDialect singleRecordPages = .ok r₀ ∧
      readPage 1 r₀ = .ok page r ∧
      ∀ (source' : Source) (t : PagedReader), source'.content = beforeReload.content ++ [51, 10] →
        invalidateFromOffset 6 { r with source := source' } = .ok () t → AgreesWithReopened t := by
  have heval : ∃ r₀ ∈ (openReader beforeReload commaDialect singleRecordPages).toOption,
      ∃ read ∈ outcome (readPage 1) r₀,
        (beforeReload.content ++ [51, 10]).take 6 = read.2.source.content.take 6 ∧
        read.2.SafeChange 6 (beforeReload.content ++ [51, 10]) := by decide +kernel
  obtain ⟨r₀, hopen, ⟨page, r⟩, hread, hagree, hsafe⟩ := heval
  have hopen := toOption_eq_some.mp hopen
  have hread := outcome_eq_some.mp hread
  have hstep : restrict UseStep SafeUse r₀ (.read (.readPage 1) (.page page)) r := by
    refine ⟨?_, trivial⟩
    show call r₀ (.readPage 1) = some (r, .page page)
    rw [call, hread]
  exact ⟨r₀, page, r, hopen, hread,
    (reload_agrees_iff hopen ((Run.nil r₀).snoc hstep) (by decide) hagree).mpr hsafe⟩

end PagedReader

end Dbflux.Delimited

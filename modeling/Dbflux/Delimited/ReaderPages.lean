import Dbflux.Lib.Transition
import Dbflux.Delimited.ReaderSpec

/-!
# The paged reader refines one scan of the whole source

The reader reaches its records through a page index that grows as it scans, a
cursor it reuses between reads, and fetches that can fail after part of the
index was updated. Its answers depend on none of that.

Results:
* `scanPage_ensures`: scanning a page from its start returns the records of
  the whole scan and extends the index correctly.
* `indexed_open`, `readPageKeeping_ensures`: opening establishes the
  reader's invariant, and every read, also one that fails, preserves it.
* `readPageKeeping_blames`: a read fails only if a call of the source did.
* `pages_of_run`: every page any sequence of reads returns is the slice of the
  whole scan.
-/

namespace Dbflux.Delimited

open Lib List

/-! ## Scanning one page -/

namespace PagedReader

/-- Only the source's call counter has changed. -/
def Unmoved (r t : PagedReader) : Prop :=
  ∃ source : Source, source.content = r.source.content ∧ t = { r with source := source }

theorem Unmoved.refl (r : PagedReader) : Unmoved r r := ⟨r.source, rfl, rfl⟩

variable {r t : PagedReader} {cursor : Cursor} {page n : ℕ} {dialect : Dialect} {layout : Layout}
  {content : Bytes}

theorem Unmoved.trans {u : PagedReader} (h : Unmoved r t) (h' : Unmoved t u) : Unmoved r u := by
  obtain ⟨source, hs, rfl⟩ := h
  obtain ⟨source', hs', rfl⟩ := h'
  exact ⟨source', hs'.trans hs, rfl⟩

theorem onSource_ensures {α : Type} {m : SourceM α} {Q : α → Prop}
    (h : Ensures m r.source (fun a t => t.content = r.source.content ∧ Q a)
      (fun t => t.content = r.source.content)) :
    Ensures (onSource m) r (fun a t => Unmoved r t ∧ Q a) (fun t => Unmoved r t) :=
  .zoom (h.mono (fun _ t ht => ⟨⟨t, ht.1, rfl⟩, ht.2⟩) fun t ht => ⟨t, ht, rfl⟩)

theorem nextRecordAt_ensures (hlength : r.length = r.source.content.length)
    (hreads : cursor.Reads r.source.content) :
    Ensures (nextRecordAt cursor) r
      (fun result t => Unmoved r t ∧ NextRecord r.source.content r.layout cursor.offset result)
      (fun t => Unmoved r t) := by
  refine (Ensures.get ?_).bind
  rw [hlength]
  exact onSource_ensures (nextRecord_ensures hreads r.options.windowSize_pos)

/-- The bytes of the leading records that fit in `budget` bytes together. -/
def leadingBytes (budget : ℕ) : List Bytes → Bytes
  | [] => []
  | record :: rest =>
    if record.length ≤ budget then record ++ leadingBytes (budget - record.length) rest else []

theorem foldl_offer_full (raw : List Bytes) {kept : KeptBytes} (h : kept.full = true) :
    (raw.foldl KeptBytes.offer kept).bytes = kept.bytes := by
  induction raw generalizing kept with
  | nil => rfl
  | cons record rest ih =>
    have hoffer : kept.offer record = { kept with full := true } := by simp [KeptBytes.offer, h]
    rw [foldl_cons, hoffer, ih rfl]

theorem foldl_offer (raw : List Bytes) {kept : KeptBytes} (h : kept.full = false)
    (hle : kept.bytes.length ≤ kept.budget) :
    (raw.foldl KeptBytes.offer kept).bytes =
      kept.bytes ++ leadingBytes (kept.budget - kept.bytes.length) raw := by
  induction raw generalizing kept with
  | nil => simp [leadingBytes]
  | cons record rest ih =>
    rw [foldl_cons, leadingBytes]
    by_cases hfit : record.length ≤ kept.budget - kept.bytes.length
    · have hoffer : kept.offer record = { kept with bytes := kept.bytes ++ record } := by
        rw [KeptBytes.offer, if_neg]
        simp only [h, Bool.false_or, decide_eq_true_eq]
        omega
      have hrest := @ih { kept with bytes := kept.bytes ++ record } h
        (by simp only [length_append]; omega)
      simp only [length_append, ← Nat.sub_sub] at hrest
      rw [hoffer, hrest, if_pos hfit, append_assoc]
    · have hoffer : kept.offer record = { kept with full := true } := by
        rw [KeptBytes.offer, if_pos]
        simp only [h, Bool.false_or, decide_eq_true_eq]
        omega
      rw [hoffer, foldl_offer_full rest rfl, if_neg hfit, append_nil]

/-- The bytes `read_page_with_bytes` keeps. -/
theorem foldl_offer_initial (budget : ℕ) {raw : List Bytes} (h : ∀ record ∈ raw, record ≠ []) :
    (raw.foldl KeptBytes.offer ⟨budget, [], decide (budget = 0)⟩).bytes =
      leadingBytes budget raw := by
  by_cases hzero : budget = 0
  · subst hzero
    rw [foldl_offer_full raw (by simp)]
    cases raw with
    | nil => rfl
    | cons record rest =>
      have := length_pos_iff.mpr (h record mem_cons_self)
      rw [leadingBytes, if_neg (by omega)]
  · rw [foldl_offer raw (by simp [hzero]) (Nat.zero_le _)]
    simp

/-- The records `scan_page` reads from a cursor: the next ones of the whole
scan, as many as there are. -/
theorem scanRecords_ensures : ∀ (count : ℕ) (r : PagedReader) (scan : PageScan),
    r.length = r.source.content.length → scan.cursor.Reads r.source.content →
    Ensures (scanRecords count scan) r
      (fun result t => Unmoved r t ∧ result.cursor.Reads r.source.content ∧
        ∀ raw, raw = (rawRecords r.layout (r.source.content.drop scan.cursor.offset)).take count →
        result.cursor.offset = scan.cursor.offset + raw.flatten.length ∧
        result.scanned = scan.scanned + raw.length ∧
        result.records = (if scan.kept.isSome then
          scan.records ++ recordsFrom r.layout r.dialect.encoding scan.cursor.offset raw
          else scan.records) ∧
        result.kept = scan.kept.map (raw.foldl KeptBytes.offer))
      (fun t => Unmoved r t) := by
  intro count
  induction count with intro r scan hlength hreads
  | zero =>
    refine .pure ⟨.refl r, hreads, ?_⟩
    simp [recordsFrom]
  | succ count ih =>
    refine (nextRecordAt_ensures hlength hreads).andThen ?_
    rintro ⟨found, c⟩ t ⟨hmoved, hnext⟩
    obtain ⟨hc, hoffset, hfound, hfetched⟩ := id hnext
    cases found with
    | none =>
      -- nothing is left, so the whole scan has no further record either
      refine .pure ⟨hmoved, hc, ?_⟩
      rw [hnext.eq_nil]
      simp [recordsFrom, hoffset]
    | some length =>
      have hraw := rawRecords_eq hfound.symm
      have hle := hfetched length rfl
      obtain ⟨hc', hoffset'⟩ := hc.consume hle
      obtain ⟨source, hsource, rfl⟩ := hmoved
      refine (ih { r with source := source } _ (by rw [hsource]; exact hlength)
        (by rw [hsource]; exact hc')).mono ?_ ?_
      · rintro result u ⟨hu, hreads', hresult⟩
        refine ⟨.trans ⟨source, hsource, rfl⟩ hu, hsource ▸ hreads', ?_⟩
        rintro raw rfl
        simp only [hsource, hoffset', hoffset, ← drop_drop] at hresult
        obtain ⟨h1, h2, h3, h4⟩ := hresult _ rfl
        rw [hraw, take_succ_cons]
        have hlen : ((r.source.content.drop scan.cursor.offset).take length).length = length :=
          length_take_of_le (recordLength_bounds hfound.symm).2
        refine ⟨?_, ?_, ?_, ?_⟩
        · rw [h1, flatten_cons, length_append, hlen, Nat.add_assoc]
        · rw [h2, length_cons]
          omega
        · rw [h3]
          cases scan.kept with
          | none => rfl
          | some kept =>
            simp [recordsFrom, hlen, buildRecord, hnext.take, hoffset]
        · rw [h4, hnext.take, Option.map_map]
          rfl
      · exact fun u hu => .trans ⟨source, hsource, rfl⟩ hu

/-! ## The invariant of the reader -/

/-- The number of data records of the reader's source. -/
def count (r : PagedReader) : ℕ := (dataRaw r.dialect r.layout r.source.content).length

/-- The offset of data record `k` of the reader's source. -/
def recordOffset (r : PagedReader) (k : ℕ) : ℕ :=
  offsetOf r.dialect r.layout r.source.content k

/-- The index agrees with one scan of the whole source. -/
structure Indexed (r : PagedReader) : Prop where
  length : r.length = r.source.content.length
  mark : r.byteOrderMarkLength = markLength r.dialect.encoding r.source.content
  header : r.header = headerRecord r.dialect r.layout r.source.content
  headerBytes : r.headerBytes = headerRaw r.dialect r.layout r.source.content
  starts_ne : r.pageStarts ≠ []
  starts : ∀ i s, r.pageStarts[i]? = some s →
    s = r.recordOffset (i * r.options.pageSize) ∧ i * r.options.pageSize ≤ r.count
  indexed : r.indexedRecords ≤ r.count
  total : ∀ n ∈ r.totalRecords, n = r.count ∧ r.count ≤ r.pageStarts.length * r.options.pageSize
  cursor : r.cursor.Reads r.source.content

theorem Indexed.of_unmoved (h : Indexed r) (hmoved : Unmoved r t) : Indexed t := by
  obtain ⟨source, hsource, rfl⟩ := hmoved
  obtain ⟨h1, h2, h3, h4, h5, h6, h7, h8, h9⟩ := h
  constructor
  all_goals simp only [count, recordOffset, hsource] at *
  all_goals assumption

theorem count_lt (r : PagedReader) : r.count < 2 ^ 64 := by
  have h := dataStart_add_flatten r.dialect r.layout r.source.content
  have hlen := length_le_sum_of_one_le
    ((dataRaw r.dialect r.layout r.source.content).map List.length) <|
    forall_mem_map.mpr fun b hb => length_pos_iff.mpr (dataRaw_ne_nil hb)
  rw [length_map, ← length_flatten] at hlen
  have := r.source.length_lt
  unfold count
  omega

theorem Indexed.noteStart (h : Indexed r) {s : ℕ}
    (hs : s = r.recordOffset (r.pageStarts.length * r.options.pageSize)) (hlt : s < r.length) :
    Indexed { r with pageStarts := r.pageStarts ++ [s] } := by
  refine ⟨h.length, h.mark, h.header, h.headerBytes, by simp, ?_, h.indexed, ?_, h.cursor⟩
  · intro i s' hi
    rcases Nat.lt_trichotomy i r.pageStarts.length with hlt' | heq | hgt
    · rw [getElem?_append_left hlt'] at hi
      exact h.starts i s' hi
    · subst heq
      rw [getElem?_append_right le_rfl, Nat.sub_self] at hi
      cases hi
      rw [hs, h.length] at hlt
      exact ⟨hs, ((offsetOf_lt_iff _).mp hlt).le⟩
    · rw [getElem?_eq_none (by rw [length_append]; simp; omega)] at hi
      cases hi
  · intro n hn
    obtain ⟨h1, h2⟩ := h.total n hn
    refine ⟨h1, le_trans h2 (Nat.mul_le_mul_right _ ?_)⟩
    rw [length_append]
    omega

/-- The reader still reads the same content in the same way. -/
structure SameView (r t : PagedReader) : Prop where
  content : t.source.content = r.source.content
  dialect : t.dialect = r.dialect
  layout : t.layout = r.layout
  options : t.options = r.options

theorem SameView.refl (r : PagedReader) : SameView r r := ⟨rfl, rfl, rfl, rfl⟩

theorem SameView.trans {u : PagedReader} (h : SameView r t) (h' : SameView t u) : SameView r u :=
  ⟨h'.content.trans h.content, h'.dialect.trans h.dialect, h'.layout.trans h.layout,
    h'.options.trans h.options⟩

theorem SameView.recordOffset (h : SameView r t) (k : ℕ) : t.recordOffset k = r.recordOffset k := by
  simp [PagedReader.recordOffset, h.content, h.dialect, h.layout]

theorem SameView.count (h : SameView r t) : t.count = r.count := by
  simp [PagedReader.count, h.content, h.dialect, h.layout]

theorem Unmoved.sameView (h : Unmoved r t) : SameView r t := by
  obtain ⟨source, hsource, rfl⟩ := h
  exact ⟨hsource, rfl, rfl, rfl⟩

/-- The bytes of the records of page `page`. -/
def pageRaw (r : PagedReader) (page : ℕ) : List Bytes :=
  ((dataRaw r.dialect r.layout r.source.content).drop (page * r.options.pageSize)).take
    r.options.pageSize

theorem SameView.pageRaw (h : SameView r t) (page : ℕ) : t.pageRaw page = r.pageRaw page := by
  simp [PagedReader.pageRaw, h.content, h.dialect, h.layout, h.options]

theorem length_pageRaw (r : PagedReader) (page : ℕ) : (r.pageRaw page).length =
    min r.options.pageSize (r.count - page * r.options.pageSize) := by
  rw [pageRaw, length_take, length_drop]
  rfl

theorem pageRaw_eq (r : PagedReader) (page : ℕ) : r.pageRaw page =
    (rawRecords r.layout (r.source.content.drop
      (r.recordOffset (page * r.options.pageSize)))).take r.options.pageSize := by
  rw [recordOffset, rawRecords_offsetOf]
  rfl

/-- The next page starts where the records of this one end. -/
theorem recordOffset_succ_page (r : PagedReader) (page : ℕ) :
    r.recordOffset ((page + 1) * r.options.pageSize) =
      r.recordOffset (page * r.options.pageSize) + (r.pageRaw page).flatten.length := by
  rw [Nat.succ_mul, recordOffset, recordOffset, offsetOf, offsetOf, take_add, flatten_append,
    length_append, Nat.add_assoc]
  rfl

theorem Indexed.recordOffset_lt_iff (h : Indexed r) {k : ℕ} :
    r.recordOffset k < r.length ↔ k < r.count := by
  rw [h.length]
  exact offsetOf_lt_iff _

/-- What scanning page `page` adds to the index, and what it returns. -/
theorem scanPage_ensures (kept : Option KeptBytes) (h : Indexed r)
    (hpage : page < r.pageStarts.length) (hreads : cursor.Reads r.source.content)
    (hcursor : cursor.offset = r.recordOffset (page * r.options.pageSize)) :
    Ensures (scanPage page cursor kept) r
      (fun scan t => Indexed t ∧ SameView r t ∧ r.pageStarts.length ≤ t.pageStarts.length ∧
        scan.cursor.Reads r.source.content ∧
        scan.cursor.offset = r.recordOffset ((page + 1) * r.options.pageSize) ∧
        (page + 1 < t.pageStarts.length ∨ r.count ≤ (page + 1) * r.options.pageSize) ∧
        scan.records = (if kept.isSome then
          recordsFrom r.layout r.dialect.encoding cursor.offset (r.pageRaw page) else []) ∧
        scan.kept = kept.map ((r.pageRaw page).foldl KeptBytes.offer))
      (fun t => Unmoved r t) := by
  have hcount := (h.starts page _ (getElem?_eq_getElem hpage)).2
  have hbound := r.count_lt
  have hpageLen := r.length_pageRaw page
  refine (Ensures.get ?_).bind
  refine ((scanRecords_ensures r.options.pageSize r _ h.length hreads).mono ?_ fun _ ht => ht).bind
  rintro scan t ⟨hmoved, hscanReads, hscan⟩
  obtain ⟨hoffset, hscanned, hrecords, hkept⟩ := hscan _ (hcursor ▸ r.pageRaw_eq page)
  simp only [Nat.zero_add, nil_append] at hoffset hscanned hrecords hkept
  have hview := hmoved.sameView
  have hoffset' : scan.cursor.offset = r.recordOffset ((page + 1) * r.options.pageSize) := by
    rw [hoffset, hcursor, recordOffset_succ_page]
  -- no index saturates: the page's records are among the records of the source
  have hthrough : min (r.firstRecordOf page + scan.scanned) u64Max =
      page * r.options.pageSize + (r.pageRaw page).length := by
    rw [firstRecordOf, hscanned, u64Max]
    omega
  rw [hthrough]
  have ht : Indexed t := h.of_unmoved hmoved
  have hthroughLe : page * r.options.pageSize + (r.pageRaw page).length ≤ t.count := by
    rw [hview.count]
    omega
  have ht' : Indexed { t with indexedRecords := max t.indexedRecords _ } :=
    { ht with indexed := max_le ht.indexed hthroughLe }
  rw [← hview.recordOffset] at hoffset'
  have hstarts : t.pageStarts = r.pageStarts := by
    obtain ⟨source, -, rfl⟩ := hmoved
    rfl
  have hpages : (page + 1) * r.options.pageSize ≤ t.pageStarts.length * r.options.pageSize :=
    Nat.mul_le_mul_right _ (by rw [hstarts]; exact hpage)
  have hsucc : (page + 1) * r.options.pageSize = page * r.options.pageSize + r.options.pageSize :=
    Nat.succ_mul _ _
  rw [← hview.count] at hcount hpageLen
  refine (Ensures.modify (Ensures.bind (Ensures.get ?_))).bind
  by_cases hat : scan.cursor.offset ≥ t.length
  · rw [if_pos hat]
    have hall : t.count ≤ (page + 1) * r.options.pageSize := Nat.le_of_not_lt fun hlt =>
      absurd (ht.recordOffset_lt_iff.mpr hlt) (by omega)
    refine Ensures.bind (Ensures.modify (Ensures.pure ⟨{ ht' with total := ?_ }, { hview with }, ?_,
      hscanReads, ?_, Or.inr ?_, hrecords, hkept⟩))
    · rintro n ⟨⟩
      show page * r.options.pageSize + (r.pageRaw page).length = t.count ∧
        t.count ≤ t.pageStarts.length * t.options.pageSize
      rw [hview.options]
      omega
    · exact hstarts ▸ le_rfl
    · rw [hoffset', hview.recordOffset]
    · rw [← hview.count]
      exact hall
  · rw [if_neg hat]
    by_cases hlast : t.pageStarts.length = page + 1
    · rw [if_pos hlast]
      refine Ensures.bind (Ensures.modify (Ensures.pure ⟨ht'.noteStart ?_ ?_, { hview with }, ?_,
        hscanReads, ?_, Or.inl ?_, hrecords, hkept⟩))
      · show scan.cursor.offset = t.recordOffset (t.pageStarts.length * t.options.pageSize)
        rw [hlast, hview.options, hoffset']
      · exact Nat.lt_of_not_le hat
      · simp [hstarts]
      · rw [hoffset', hview.recordOffset]
      · simp [hlast]
    · rw [if_neg hlast]
      refine Ensures.pure ⟨ht', { hview with }, ?_, hscanReads, ?_, Or.inl ?_, hrecords, hkept⟩
      · exact hstarts ▸ le_rfl
      · rw [hoffset', hview.recordOffset]
      · show page + 1 < t.pageStarts.length
        rw [hstarts] at hlast ⊢
        omega

/-! ## Reading a page -/

/-- Scanning forward over pages that are not indexed yet: the cursor ends at
the wanted page, or the source has no such page. -/
theorem skipPages_ensures : ∀ (n skipped : ℕ) (cursor : Cursor) (r : PagedReader), Indexed r →
    cursor.Reads r.source.content →
    cursor.offset = r.recordOffset (skipped * r.options.pageSize) →
    (skipped < r.pageStarts.length ∨ r.count ≤ skipped * r.options.pageSize) →
    Ensures (skipPages n skipped cursor) r
      (fun c t => Indexed t ∧ SameView r t ∧ c.Reads r.source.content ∧
        (skipped + n < t.pageStarts.length →
          c.offset = r.recordOffset ((skipped + n) * r.options.pageSize)) ∧
        (t.pageStarts.length ≤ skipped + n → r.count ≤ (skipped + n) * r.options.pageSize))
      (fun t => Indexed t ∧ SameView r t) := by
  intro n
  induction n with intro skipped cursor r h hreads hcursor hwithin
  | zero =>
    refine .pure ⟨h, .refl r, hreads, fun _ => hcursor, fun hge => ?_⟩
    rcases hwithin with hlt | hall
    · exact absurd hlt (Nat.not_lt.mpr hge)
    · exact hall
  | succ n ih =>
    have hle : skipped * r.options.pageSize ≤ (skipped + (n + 1)) * r.options.pageSize :=
      Nat.mul_le_mul_right _ (Nat.le_add_right _ _)
    refine (Ensures.get ?_).bind
    by_cases hbreak : r.pageStarts.length ≤ skipped
    · rw [if_pos hbreak]
      refine Ensures.pure ⟨h, SameView.refl r, hreads, fun hlt => ?_, fun _ => ?_⟩
      · omega
      · rcases hwithin with hlt | hall
        · omega
        · omega
    · rw [if_neg hbreak]
      refine ((scanPage_ensures none h (Nat.lt_of_not_le hbreak) hreads hcursor).mono
        ?_ fun t ht => ⟨h.of_unmoved ht, ht.sameView⟩).bind
      rintro scan t ⟨ht, hview, -, hscanReads, hoffset, hnext, -, -⟩
      have hnext' := ih (skipped + 1) scan.cursor t ht (hview.content.symm ▸ hscanReads)
        (by rw [hoffset, hview.recordOffset, hview.options])
        (by rw [hview.count, hview.options]; exact hnext)
      refine hnext'.mono ?_ fun u hu => ⟨hu.1, hview.trans hu.2⟩
      rintro c u ⟨hu, hview', hc, hat, hpast⟩
      rw [hview.content] at hc
      rw [hview.recordOffset, hview.options] at hat
      rw [hview.count, hview.options] at hpast
      rw [show skipped + 1 + n = skipped + (n + 1) by omega] at hat hpast
      exact ⟨hu, hview.trans hview', hc, hat, hpast⟩

theorem pageRaw_eq_nil (h : r.count ≤ page * r.options.pageSize) : r.pageRaw page = [] := by
  rw [pageRaw, drop_eq_nil_of_le h, take_nil]

/-- What `read_page_with_bytes` answers: the records of the page, and the
bytes of the leading ones that fit in the budget. -/
def pageSpec (r : PagedReader) (page budget : ℕ) : Page × Bytes :=
  (⟨r.firstRecordOf page,
    ((dataRecords r.dialect r.layout r.source.content).drop (page * r.options.pageSize)).take
      r.options.pageSize⟩,
    leadingBytes budget (r.pageRaw page))

theorem pageSpec_eq (r : PagedReader) (page budget : ℕ) :
    r.pageSpec page budget = (⟨r.firstRecordOf page,
      recordsFrom r.layout r.dialect.encoding (r.recordOffset (page * r.options.pageSize))
        (r.pageRaw page)⟩, leadingBytes budget (r.pageRaw page)) := by
  rw [pageSpec, dataRecords, recordsFrom_drop, recordsFrom_take]
  rfl

/-- Every read returns the page of the whole scan, or fails; either way the
index stays right. -/
theorem readPageKeeping_ensures (h : Indexed r) (page budget : ℕ) :
    Ensures (readPageKeeping page budget) r
      (fun result t => Indexed t ∧ SameView r t ∧ result = r.pageSpec page budget)
      (fun t => Indexed t ∧ SameView r t) := by
  have hpos := length_pos_iff.mpr h.starts_ne
  refine (Ensures.get ?_).bind
  simp only
  by_cases hknown : page ≥ r.pageStarts.length ∧ r.totalRecords.isSome = true
  · -- the total is known, so a page past the index is past the end
    rw [if_pos hknown]
    obtain ⟨n, hn⟩ := Option.isSome_iff_exists.mp hknown.2
    have hall := (h.total n hn).2
    have hle : r.pageStarts.length * r.options.pageSize ≤ page * r.options.pageSize :=
      Nat.mul_le_mul_right _ hknown.1
    refine Ensures.pure ⟨h, SameView.refl r, ?_⟩
    rw [pageSpec_eq, pageRaw_eq_nil (by omega)]
    rfl
  · rw [if_neg hknown]
    set nearest := min (r.pageStarts.length - 1) page with hnearest
    have hlt : nearest < r.pageStarts.length := by omega
    obtain ⟨s, hs⟩ : ∃ s, r.pageStarts[nearest]? = some s := ⟨_, getElem?_eq_getElem hlt⟩
    have hstart := (h.starts nearest s hs).1
    rw [hs, Option.getD_some]
    set cursor := if r.cursor.offset ≠ s then .atOffset s else r.cursor with hcursor
    have hread : cursor.Reads r.source.content ∧ cursor.offset = s := by
      rw [hcursor]
      split_ifs with hmoved
      · exact ⟨Cursor.reads_atOffset (hstart ▸ offsetOf_le _), rfl⟩
      · exact ⟨h.cursor, not_not.mp hmoved⟩
    set r₀ : PagedReader := { r with cursor := .atOffset 0 } with hr₀
    have h₀ : Indexed r₀ := { h with cursor := Cursor.reads_atOffset (Nat.zero_le _) }
    have hview₀ : SameView r r₀ := ⟨rfl, rfl, rfl, rfl⟩
    have hpage : nearest + (page - nearest) = page := by omega
    have hskip := skipPages_ensures (page - nearest) nearest cursor r₀ h₀ hread.1
      (hread.2.trans hstart) (.inl hlt)
    rw [hpage, hview₀.recordOffset, hview₀.count, hview₀.options] at hskip
    refine (Ensures.modify ?_).bind
    refine (hskip.mono ?_ fun t ht => ⟨ht.1, hview₀.trans ht.2⟩).bind
    rintro c t ⟨ht, hview, hc, hat, hpast⟩
    have hview := hview₀.trans hview
    refine (Ensures.get ?_).bind
    by_cases hin : page < t.pageStarts.length
    · rw [if_pos hin]
      refine ((scanPage_ensures _ ht hin (hview.content.symm ▸ hc) ?_).mono ?_
        fun u hu => ⟨ht.of_unmoved hu, hview.trans hu.sameView⟩).bind
      · rw [hat hin, hview.recordOffset, hview.options]
      · rintro scan u ⟨hu, hview', -, hscanReads, -, -, hrecords, hkept⟩
        refine .bind (.modify (.pure ⟨{ hu with cursor := ?_ }, { hview.trans hview' with }, ?_⟩))
        · rw [hview'.content]
          exact hscanReads
        · rw [hrecords, hkept, pageSpec_eq, hview.pageRaw, hat hin, hview.layout, hview.dialect]
          simp only [Option.isSome_some, if_true, Option.map_some, Option.getD_some]
          rw [foldl_offer_initial budget]
          exact fun b hb => dataRaw_ne_nil (mem_of_mem_drop (mem_of_mem_take hb))
    · rw [if_neg hin]
      refine .bind (.modify (.pure ⟨{ ht with cursor := ?_ }, { hview with }, ?_⟩))
      · rw [hview.content]
        exact hc
      · rw [pageSpec_eq, pageRaw_eq_nil (hpast (Nat.le_of_not_lt hin))]
        rfl

theorem readPage_ensures (h : Indexed r) (page : ℕ) : Ensures (readPage page) r
      (fun result t => Indexed t ∧ SameView r t ∧ result = (r.pageSpec page 0).1)
      (fun t => Indexed t ∧ SameView r t) :=
  ((readPageKeeping_ensures h page 0).mono
    (fun _ _ ⟨h1, h2, h3⟩ => .pure ⟨h1, h2, by rw [h3]⟩) fun _ ht => ht).bind

/-! ## Opening -/

theorem byteLength_ensures (source : Source) : Ensures Source.byteLength source
      (fun length t => t.content = source.content ∧ length = source.content.length)
      (fun t => t.content = source.content) := by
  unfold Ensures Source.byteLength
  cases source.answers source.calls <;> first | exact ⟨rfl, rfl⟩ | exact rfl

/-- After the loop the cursor holds enough bytes to see the mark, or all. -/
theorem fetchMark_ensures {windowSize : ℕ} (hwindow : 0 < windowSize) (markLength : ℕ)
    (content : Bytes) : ∀ (fuel : ℕ) (source : Source) (cursor : Cursor),
    source.content = content → cursor.Reads content → content.length - cursor.bufferEnd < fuel →
    Ensures (fetchMark content.length windowSize markLength fuel cursor) source
      (fun c t => t.content = content ∧ c.Reads content ∧ c.offset = cursor.offset ∧
        (markLength ≤ c.remaining.length ∨ c.bufferEnd = content.length))
      (fun t => t.content = content) := by
  intro fuel
  induction fuel with
  | zero => intro _ _ _ _ hfuel; omega
  | succ fuel ih =>
    intro source cursor hsource hreads hfuel
    have hend := hreads.bufferEnd_le
    simp only [fetchMark]
    by_cases hmore : cursor.remaining.length < markLength ∧ cursor.bufferEnd < content.length
    · rw [if_pos hmore]
      have hext := extend_ensures source (hsource.symm ▸ hreads) (by rw [hsource]; exact hmore.2)
        hwindow
      rw [hsource] at hext
      refine hext.andThen ?_
      rintro c t ⟨ht, hc, hoffset, hgrown⟩
      refine (ih t c ht hc (by omega)).mono ?_ fun _ hu => hu
      rintro c' u ⟨hu, hc', hoffset', hdone⟩
      exact ⟨hu, hc', hoffset'.trans hoffset, hdone⟩
    · rw [if_neg hmore]
      exact .pure ⟨hsource, hreads, rfl, by omega⟩

/-- The mark is seen in the fetched bytes exactly when the content has it. -/
theorem consumeMark {encoding : Encoding} (hreads : cursor.Reads content)
    (hoffset : cursor.offset = 0)
    (hdone : (byteOrderMark encoding).length ≤ cursor.remaining.length ∨
      cursor.bufferEnd = content.length) :
    let c := if !(byteOrderMark encoding).isEmpty &&
        (byteOrderMark encoding).isPrefixOf cursor.remaining
      then cursor.consume (byteOrderMark encoding).length else cursor
    c.Reads content ∧ c.offset = markLength encoding content := by
  have hdrop := hreads.drop_offset
  rw [hoffset, drop_zero] at hdrop
  have hsame : (byteOrderMark encoding).isPrefixOf cursor.remaining =
      (byteOrderMark encoding).isPrefixOf content := by
    rw [Bool.eq_iff_iff, isPrefixOf_iff_prefix, isPrefixOf_iff_prefix]
    rcases hdone with hlen | hend
    · constructor
      · intro h
        rw [hdrop]
        exact h.trans (prefix_append _ _)
      · intro h
        rw [hdrop] at h
        exact prefix_of_prefix_length_le h (prefix_append _ _) hlen
    · rw [hend, drop_length, append_nil] at hdrop
      rw [hdrop]
  simp only [markLength, hsame]
  split_ifs with hmark
  · rw [Bool.and_eq_true, ← hsame, isPrefixOf_iff_prefix] at hmark
    obtain ⟨h1, h2⟩ := hreads.consume hmark.2.length_le
    exact ⟨h1, by rw [h2, hoffset, Nat.zero_add]⟩
  · exact ⟨hreads, hoffset⟩

theorem readHeader_ensures (hlength : r.length = r.source.content.length)
    (hheader : r.header = none) (hbytes : r.headerBytes = none)
    (hreads : cursor.Reads r.source.content)
    (hoffset : cursor.offset = markLength r.dialect.encoding r.source.content) :
    Ensures (readHeader cursor) r (fun c t => SameView r t ∧ t.length = r.length ∧
        t.byteOrderMarkLength = r.byteOrderMarkLength ∧
        t.header = headerRecord r.dialect r.layout r.source.content ∧
        t.headerBytes = headerRaw r.dialect r.layout r.source.content ∧
        c.Reads r.source.content ∧ c.offset = dataStart r.dialect r.layout r.source.content)
      (fun t => SameView r t) := by
  refine (Ensures.get ?_).bind
  by_cases hhas : r.dialect.hasHeader = true
  · rw [if_pos hhas]
    refine ((nextRecordAt_ensures hlength hreads).mono ?_ fun t ht => ht.sameView).bind
    rintro ⟨found, c⟩ t ⟨hmoved, hnext⟩
    have hview := hmoved.sameView
    rw [hoffset] at hnext
    obtain ⟨hc, hoffset', hfound, hfetched⟩ := id hnext
    cases found with
    | none =>
      have hraw : headerRaw r.dialect r.layout r.source.content = none := by
        simp [headerRaw, hhas, allRaw, hnext.eq_nil]
      obtain ⟨source, -, rfl⟩ := hmoved
      refine Ensures.pure ⟨hview, rfl, rfl, ?_, ?_, hc, ?_⟩
      · simp [headerRecord, hraw, hheader]
      · simp [hraw, hbytes]
      · simp [hoffset', dataStart, hraw]
    | some n =>
      have hle := hfetched n rfl
      have hraw : headerRaw r.dialect r.layout r.source.content = some (c.remaining.take n) := by
        rw [headerRaw, if_pos hhas, allRaw, rawRecords_eq hfound.symm, hnext.take]
        rfl
      obtain ⟨hc', hoffset''⟩ := hc.consume hle
      obtain ⟨source, -, rfl⟩ := hmoved
      refine Ensures.bind (Ensures.modify (Ensures.pure ⟨?_, rfl, rfl, ?_, ?_, hc', ?_⟩))
      · exact ⟨hview.content, rfl, rfl, rfl⟩
      · simp [headerRecord, hraw, buildRecord, hoffset']
      · exact hraw.symm
      · rw [hoffset'', hoffset', dataStart, hraw]
        simp [length_take_of_le hle]
  · rw [if_neg hhas]
    have hraw : headerRaw r.dialect r.layout r.source.content = none := by
      simp [headerRaw, hhas]
    refine Ensures.pure ⟨SameView.refl r, rfl, rfl, ?_, ?_, hreads, ?_⟩
    · simp [headerRecord, hraw, hheader]
    · simp [hraw, hbytes]
    · simp [hoffset, dataStart, hraw]

/-- An index of one page start over a freshly read header. -/
theorem indexed_start {c : Cursor} (hlength : t.length = t.source.content.length)
    (hmark : t.byteOrderMarkLength = markLength t.dialect.encoding t.source.content)
    (hheader : t.header = headerRecord t.dialect t.layout t.source.content)
    (hbytes : t.headerBytes = headerRaw t.dialect t.layout t.source.content)
    (hreads : c.Reads t.source.content)
    (hoffset : c.offset = dataStart t.dialect t.layout t.source.content) :
    Indexed { t with
      pageStarts := [c.offset]
      indexedRecords := 0
      totalRecords := if c.offset ≥ t.length then some 0 else none
      cursor := c } := by
  have hzero : offsetOf t.dialect t.layout t.source.content 0 = c.offset := by
    rw [hoffset, offsetOf]
    simp
  refine ⟨hlength, hmark, hheader, hbytes, by simp, ?_, Nat.zero_le _, ?_, hreads⟩
  · intro i s hi
    cases i with
    | zero =>
      cases hi
      rw [Nat.zero_mul]
      exact ⟨hzero.symm, Nat.zero_le _⟩
    | succ i => cases hi
  · intro n hn
    simp only [Option.mem_def, Option.ite_none_right_eq_some, Option.some.injEq] at hn
    have hcount : ¬ 0 < (dataRaw t.dialect t.layout t.source.content).length := by
      rw [← offsetOf_lt_iff, hzero, ← hlength]
      omega
    exact ⟨by simp only [count]; omega, by simp only [count]; omega⟩

/-- `prepare` starts the index of the source's content afresh. -/
theorem prepare_ensures (r : PagedReader) :
    Ensures prepare r (fun _ t => Indexed t ∧ SameView r t) (fun t => SameView r t) := by
  refine ((onSource_ensures (byteLength_ensures r.source)).mono ?_ fun t ht => ht.sameView).bind
  rintro length t ⟨hmoved, rfl⟩
  have hview := hmoved.sameView
  rw [← hview.content]
  refine (Ensures.modify (Ensures.bind (Ensures.get ?_))).bind
  refine ((onSource_ensures (r := { t with length := t.source.content.length })
    (fetchMark_ensures t.options.windowSize_pos (byteOrderMark t.dialect.encoding).length
    t.source.content (t.source.content.length + 1) t.source (Cursor.atOffset 0) rfl
    (Cursor.reads_atOffset (Nat.zero_le _))
    (by simp [Cursor.bufferEnd, Cursor.atOffset]))).mono ?_ ?_).bind
  · rintro c u ⟨⟨source, hsource, rfl⟩, hc, hoffset, hdone⟩
    obtain ⟨hc', hoffset'⟩ := consumeMark hc hoffset hdone
    have hview₀ : SameView r { t with source := source } :=
      { hview with content := hsource.trans hview.content }
    refine (Ensures.modify ?_).bind
    refine ((readHeader_ensures ?_ rfl rfl ?_ ?_).mono ?_ ?_).bind
    · exact congrArg List.length hsource.symm
    · rw [hsource]
      exact hc'
    · rw [hsource]
      exact hoffset'
    · rintro c' v ⟨hview', hlength, hmark, hheader, hbytes, hreads, hstart⟩
      refine .modify ⟨indexed_start ?_ ?_ ?_ ?_ ?_ ?_, ?_⟩
      · rw [hlength, hview'.content]
        exact congrArg List.length hsource.symm
      · rw [hmark, hview'.content, hview'.dialect]
        simp only [hsource]
        exact hoffset'
      · rw [hheader, hview'.content, hview'.dialect, hview'.layout]
      · rw [hbytes, hview'.content, hview'.dialect, hview'.layout]
      · rw [hview'.content]
        exact hreads
      · rw [hstart, hview'.content, hview'.dialect, hview'.layout]
      · exact hview₀.trans { hview' with }
    · exact fun v hv => hview₀.trans { hv with }
  · rintro u ⟨source, hsource, rfl⟩
    exact { hview with content := hsource.trans hview.content }

theorem indexed_open {source : Source} {options : ReaderOptions}
    (h : openReader source dialect options = .ok r) :
    Indexed r ∧ r.source.content = source.content ∧ r.dialect = dialect ∧
      Layout.forDialect dialect = .ok r.layout ∧ r.options = options := by
  unfold openReader at h
  cases hlayout : Layout.forDialect dialect with
  | error e =>
    rw [hlayout] at h
    cases h
  | ok layout =>
    simp only [hlayout] at h
    split at h
    next u t hprepare =>
      cases h
      obtain ⟨hindexed, hview⟩ := (prepare_ensures _).ok hprepare
      refine ⟨hindexed, hview.content, hview.dialect, ?_, hview.options⟩
      rw [hview.layout]
    next => cases h

/-! ## Failed reads -/

/-- A source after more calls. -/
structure Later (source later : Source) : Prop where
  content : later.content = source.content
  answers : later.answers = source.answers
  calls : source.calls ≤ later.calls

theorem Later.refl (source : Source) : Later source source := ⟨rfl, rfl, le_rfl⟩

theorem Later.next (source : Source) : Later source source.next :=
  ⟨rfl, rfl, Nat.le_succ source.calls⟩

theorem Later.trans {a b c : Source} (h : Later a b) (h' : Later b c) : Later a c :=
  ⟨h'.content.trans h.content, h'.answers.trans h.answers, h.calls.trans h'.calls⟩

/-- Between the two a call failed, or returned less than it was asked for. -/
def HadFailure (source later : Source) : Prop :=
  ∃ n, source.calls ≤ n ∧ n < later.calls ∧ source.answers n ≠ .ok

theorem Later.hadFailure {a b c : Source} (h : Later a b) (hfailed : HadFailure b c) :
    HadFailure a c := by
  obtain ⟨n, hle, hlt, hanswer⟩ := hfailed
  exact ⟨n, h.calls.trans hle, hlt, h.answers ▸ hanswer⟩

theorem HadFailure.of_next {source : Source} (h : source.answers source.calls ≠ .ok) :
    HadFailure source source.next := ⟨source.calls, le_rfl, Nat.lt_succ_self _, h⟩

section Blames

variable {σ α β : Type} {view : σ → Source} {length : σ → ℕ}

/-- Where the length of the source is known, `m` fails only if a call of the
source failed. -/
def Blames (view : σ → Source) (length : σ → ℕ) (m : EStateM ReadError σ α) : Prop :=
  ∀ s, length s = (view s).content.length →
    Ensures m s (fun _ t => length t = length s ∧ Later (view s) (view t))
      (fun t => HadFailure (view s) (view t))

protected theorem Blames.pure (a : α) : Blames view length (pure a) :=
  fun s _ => .pure ⟨rfl, .refl (view s)⟩

protected theorem Blames.get : Blames view length get :=
  fun s _ => .get ⟨rfl, .refl (view s)⟩

protected theorem Blames.modify {g : σ → σ} (hview : ∀ s, view (g s) = view s)
    (hlength : ∀ s, length (g s) = length s) : Blames view length (modify g) :=
  fun s _ => .modify ⟨hlength s, hview s ▸ .refl (view s)⟩

protected theorem Blames.bind {m : EStateM ReadError σ α} {f : α → EStateM ReadError σ β}
    (h : Blames view length m) (hf : ∀ a, Blames view length (f a)) :
    Blames view length (m >>= f) := by
  intro s hs
  refine (h s hs).andThen ?_
  rintro a t ⟨hlength, hlater⟩
  have ht : length t = (view t).content.length := by rw [hlength, hs, hlater.content]
  refine (hf a t ht).mono ?_ fun u hfailed => hlater.hadFailure hfailed
  rintro b u ⟨hlength', hlater'⟩
  exact ⟨hlength'.trans hlength, hlater.trans hlater'⟩

end Blames

theorem readRange_ok_length {source : Source} {start finish : ℕ} (hle : start ≤ finish)
    (hfinish : finish ≤ source.content.length) :
    (Source.slice source.content start finish).length = finish - start := by
  rw [Source.slice_eq _ hle hfinish, length_take, length_drop]
  omega

/-- A fetch of bytes the source has is answered in full unless the call fails. -/
theorem extend_blames {length request : ℕ} (hmore : cursor.bufferEnd < length) :
    Blames id (fun _ => length) (extend length cursor request) := by
  intro source hlength
  have hread : (Source.slice source.content cursor.bufferEnd
      (min (cursor.bufferEnd + request) length)).length =
      min (cursor.bufferEnd + request) length - cursor.bufferEnd :=
    readRange_ok_length (by omega) (hlength ▸ Nat.min_le_right _ _)
  unfold Ensures extend
  simp only [bind, EStateM.bind, Source.readRange]
  cases hanswer : source.answers source.calls with
  | ok =>
    simp only [hread, ne_eq, not_true_eq_false, if_false]
    exact ⟨trivial, .next source⟩
  | fail message => exact .of_next (by rw [id, hanswer]; simp)
  | short count =>
    have hfailed : HadFailure source source.next := .of_next (by rw [hanswer]; simp)
    dsimp only
    split_ifs
    · exact hfailed
    · exact ⟨trivial, .next source⟩

theorem nextRecordLoop_blames (layout : Layout) (length : ℕ) :
    ∀ (fuel request : ℕ) (cursor : Cursor),
    Blames id (fun _ => length) (nextRecordLoop layout length fuel request cursor) := by
  intro fuel
  induction fuel with
  | zero => exact fun _ _ => .pure _
  | succ fuel ih =>
    intro request cursor
    simp only [nextRecordLoop]
    split_ifs with hdone
    · exact .pure _
    · rw [Bool.or_eq_true, not_or, decide_eq_true_eq] at hdone
      exact (extend_blames (by omega)).bind fun c => ih (request * 2) c

theorem nextRecordAt_blames (cursor : Cursor) :
    Blames PagedReader.source PagedReader.length (nextRecordAt cursor) := by
  intro r hr
  have h := nextRecordLoop_blames r.layout r.length (r.length - cursor.bufferEnd + 1)
    r.options.windowSize cursor r.source hr
  exact (Ensures.get (.zoom h)).bind

theorem scanRecords_blames (count : ℕ) (scan : PageScan) :
    Blames PagedReader.source PagedReader.length (scanRecords count scan) := by
  induction count generalizing scan with
  | zero => exact .pure scan
  | succ count ih =>
    refine .bind .get fun r => (nextRecordAt_blames scan.cursor).bind ?_
    rintro ⟨found, cursor⟩
    cases found with
    | none => exact .pure _
    | some length => exact ih _

theorem scanPage_blames (page : ℕ) (cursor : Cursor) (kept : Option KeptBytes) :
    Blames PagedReader.source PagedReader.length (scanPage page cursor kept) := by
  refine .bind .get fun r => (scanRecords_blames _ _).bind fun scan => ?_
  refine .bind (.modify (fun _ => rfl) fun _ => rfl) fun _ => .bind .get fun r => ?_
  split_ifs
  · exact .bind (.modify (fun _ => rfl) fun _ => rfl) fun _ => .pure _
  · exact .bind (.modify (fun _ => rfl) fun _ => rfl) fun _ => .pure _
  · exact .bind (.pure _) fun _ => .pure _

theorem skipPages_blames (count skipped : ℕ) (cursor : Cursor) :
    Blames PagedReader.source PagedReader.length (skipPages count skipped cursor) := by
  induction count generalizing skipped cursor with
  | zero => exact .pure cursor
  | succ count ih =>
    refine .bind .get fun r => ?_
    split_ifs
    · exact .pure cursor
    · exact (scanPage_blames skipped cursor none).bind fun scan => ih _ _

/-- A read fails only if a call of the source did. -/
theorem readPageKeeping_blames (page budget : ℕ) :
    Blames PagedReader.source PagedReader.length (readPageKeeping page budget) := by
  refine .bind .get fun r => ?_
  split_ifs
  · exact .pure _
  · refine .bind (.modify (fun _ => rfl) fun _ => rfl) fun _ => ?_
    refine (skipPages_blames _ _ _).bind fun cursor => .bind .get fun r => ?_
    split_ifs
    · exact (scanPage_blames page cursor _).bind fun scan =>
        .bind (.modify (fun _ => rfl) fun _ => rfl) fun _ => .pure _
    · exact .bind (.modify (fun _ => rfl) fun _ => rfl) fun _ => .pure _

/-! ## Runs -/

/-- A read of a caller. -/
inductive ReadCall where
  | readPage (page : ℕ)
  | readPageWithBytes (page budget : ℕ)
  deriving DecidableEq, Repr

/-- What a read returned. -/
inductive ReadResult where
  | page (page : Page)
  | pageWithBytes (page : Page) (bytes : Bytes)
  | failed (error : ReadError)
  deriving DecidableEq, Repr

/-- The reader after a read, and what the read returned. -/
def call (r : PagedReader) : ReadCall → Option (PagedReader × ReadResult)
  | .readPage page =>
    match readPage page r with
    | .ok result t => some (t, .page result)
    | .error e t => some (t, .failed e)
  | .readPageWithBytes page budget =>
    match readPageWithBytes page budget r with
    | .ok result t => some (t, .pageWithBytes result.1 result.2)
    | .error e t => some (t, .failed e)

/-- The bytes of `content` a record was read from. -/
def bytesOf (content : Bytes) (record : Record) : Bytes :=
  (content.drop record.start).take (record.finish - record.start)

/-- The result of a read that did not fail is the slice of `records` the page
stands for, with the bytes of the leading records that fit the budget. -/
def Answers (content : Bytes) (records : List Record) (pageSize : ℕ) :
    ReadCall × ReadResult → Prop
  | (.readPage page, .page result) =>
    result.records = (records.drop (page * pageSize)).take pageSize
  | (.readPageWithBytes page budget, .pageWithBytes result bytes) =>
    result.records = (records.drop (page * pageSize)).take pageSize ∧
      bytes = leadingBytes budget (result.records.map (bytesOf content))
  | (_, .failed _) => True
  | (_, _) => False

theorem recordsFrom_bytesOf {encoding : Encoding} :
    ∀ (raw : List Bytes) (start : ℕ) (rest : Bytes), content.drop start = raw.flatten ++ rest →
    (recordsFrom layout encoding start raw).map (bytesOf content) = raw := by
  intro raw
  induction raw with
  | nil => intro _ _ _; rfl
  | cons bytes raw ih =>
    intro start rest h
    rw [flatten_cons, append_assoc] at h
    rw [recordsFrom, map_cons, ih (start + bytes.length) rest]
    · simp [bytesOf, recordAt, h]
    · rw [← drop_drop, h, drop_left]

theorem pageSpec_bytesOf (r : PagedReader) (page budget : ℕ) :
    (r.pageSpec page budget).1.records.map (bytesOf r.source.content) = r.pageRaw page := by
  rw [pageSpec_eq]
  refine recordsFrom_bytesOf _ _ ((dataRaw r.dialect r.layout r.source.content).drop
      (page * r.options.pageSize + r.options.pageSize)).flatten ?_
  have hscan := rawRecords_offsetOf r.dialect r.layout r.source.content
  rw [recordOffset, ← rawRecords_flatten r.layout
    (r.source.content.drop (offsetOf r.dialect r.layout r.source.content _)), hscan, pageRaw,
    ← flatten_append, ← drop_drop, take_append_drop]

theorem call_answers {c : ReadCall} {result : ReadResult} (h : Indexed r)
    (hcall : ExecStep call r (c, result) t) :
    Indexed t ∧ SameView r t ∧ Answers r.source.content
      (dataRecords r.dialect r.layout r.source.content) r.options.pageSize (c, result) := by
  unfold ExecStep at hcall
  cases c with
  | readPage page =>
    have hens := readPage_ensures h page
    simp only [call] at hcall
    split at hcall
    next p u hrun =>
      cases hcall
      obtain ⟨h1, h2, rfl⟩ := hens.ok hrun
      exact ⟨h1, h2, rfl⟩
    next e u hrun =>
      cases hcall
      exact ⟨(hens.error hrun).1, (hens.error hrun).2, trivial⟩
  | readPageWithBytes page budget =>
    have hens := readPageKeeping_ensures h page budget
    simp only [call] at hcall
    split at hcall
    next p u hrun =>
      cases hcall
      obtain ⟨h1, h2, rfl⟩ := hens.ok hrun
      refine ⟨h1, h2, rfl, ?_⟩
      rw [pageSpec_bytesOf]
      rfl
    next e u hrun =>
      cases hcall
      exact ⟨(hens.error hrun).1, (hens.error hrun).2, trivial⟩

theorem call_blames {c : ReadCall} {e : ReadError} (h : Indexed r)
    (hcall : ExecStep call r (c, .failed e) t) : HadFailure r.source t.source := by
  unfold ExecStep at hcall
  cases c with
  | readPage page =>
    have hblames : Blames PagedReader.source PagedReader.length (readPage page) :=
      (readPageKeeping_blames page 0).bind fun result => .pure result.1
    simp only [call] at hcall
    split at hcall
    next => cases hcall
    next e u hrun =>
      cases hcall
      exact (hblames r h.length).error hrun
  | readPageWithBytes page budget =>
    simp only [call] at hcall
    split at hcall
    next => cases hcall
    next e u hrun =>
      cases hcall
      exact (readPageKeeping_blames page budget r h.length).error hrun

/-- The ranges follow each other without gap or overlap from `start` to
`finish`. -/
def Tiles (start : ℕ) : List (ℕ × ℕ) → ℕ → Prop
  | [], finish => start = finish
  | (s, e) :: rest, finish => s = start ∧ s ≤ e ∧ Tiles e rest finish

theorem tiles_recordsFrom (layout : Layout) (encoding : Encoding) :
    ∀ (raw : List Bytes) (start : ℕ),
    Tiles start ((recordsFrom layout encoding start raw).map fun r => (r.start, r.finish))
      (start + raw.flatten.length) := by
  intro raw
  induction raw with
  | nil => intro start; simp [recordsFrom, Tiles]
  | cons bytes raw ih =>
    intro start
    refine ⟨rfl, Nat.le_add_right _ _, ?_⟩
    rw [flatten_cons, length_append, ← Nat.add_assoc]
    exact ih _

/-- The byte-order mark, the header and the data records tile the source. -/
theorem tiles_whole (dialect : Dialect) (layout : Layout) (content : Bytes) :
    Tiles 0 ((0, markLength dialect.encoding content) ::
      ((headerRecord dialect layout content).toList ++ dataRecords dialect layout content).map
        fun r => (r.start, r.finish)) content.length := by
  refine ⟨rfl, Nat.zero_le _, ?_⟩
  have hdata := tiles_recordsFrom layout dialect.encoding (dataRaw dialect layout content)
    (dataStart dialect layout content)
  rw [dataStart_add_flatten] at hdata
  cases hheader : headerRaw dialect layout content with
  | none =>
    have hstart : dataStart dialect layout content = markLength dialect.encoding content := by
      simp [dataStart, hheader]
    simpa [headerRecord, hheader, dataRecords, hstart] using hdata
  | some bytes =>
    have hstart : dataStart dialect layout content =
        markLength dialect.encoding content + bytes.length := by
      simp [dataStart, hheader]
    rw [hstart] at hdata
    simp only [headerRecord, hheader, Option.map_some, Option.toList_some, cons_append,
      nil_append, map_cons, dataRecords, hstart]
    exact ⟨rfl, Nat.le_add_right _ _, hdata⟩

theorem indexed_of_run {r₀ : PagedReader} {history : List (ReadCall × ReadResult)} (h : Indexed r₀)
    (hrun : Run (ExecStep call) r₀ history r) :
    Indexed r ∧ SameView r₀ r ∧ ∀ entry ∈ history, Answers r₀.source.content
      (dataRecords r₀.dialect r₀.layout r₀.source.content) r₀.options.pageSize entry := by
  refine hrun.traceInvariant (I := fun history t => Indexed t ∧ SameView r₀ t ∧
    ∀ entry ∈ history, Answers r₀.source.content
      (dataRecords r₀.dialect r₀.layout r₀.source.content) r₀.options.pageSize entry) ?_
    ⟨h, .refl r₀, by simp⟩
  rintro history t ⟨c, result⟩ u ⟨ht, hview, hall⟩ hstep
  obtain ⟨hu, hview', hanswer⟩ := call_answers ht hstep
  rw [hview.content, hview.dialect, hview.layout, hview.options] at hanswer
  refine ⟨hu, hview.trans hview', fun entry hentry => ?_⟩
  rcases mem_append.mp hentry with hold | hlast
  · exact hall entry hold
  · rw [mem_singleton.mp hlast]
    exact hanswer

/-- **Paging is invisible.** Whatever pages are read in whatever order, with
whatever window, and whichever of the source's answers fail in between:
every page returned is the slice of the records that one scan of the whole
source gives, together with the bytes of its leading records that fit the
budget; a read fails only if one of the source's answers to it does; the
byte-order mark, the header and the records tile the source; and the record
count is never above the true one, and is the true one when it is called a
total. -/
theorem pages_of_run {source : Source} {dialect : Dialect} {options : ReaderOptions}
    {layout : Layout} {r₀ r : PagedReader} {history : List (ReadCall × ReadResult)}
    (hlayout : Layout.forDialect dialect = .ok layout)
    (hopen : openReader source dialect options = .ok r₀)
    (hrun : Run (ExecStep call) r₀ history r) :
    (∀ entry ∈ history, Answers source.content (dataRecords dialect layout source.content)
      options.pageSize entry) ∧
    (∀ before c e after, history = before ++ (c, .failed e) :: after →
      ∃ s t, Run (ExecStep call) r₀ before s ∧ ExecStep call s (c, .failed e) t ∧
        HadFailure s.source t.source) ∧
    Tiles 0 ((0, r.byteOrderMarkLength) ::
      (r.header.toList ++ dataRecords dialect layout source.content).map
        fun record => (record.start, record.finish)) source.content.length ∧
    (match r.recordCount with
      | .total count => count = (dataRecords dialect layout source.content).length
      | .indexedSoFar count => count ≤ (dataRecords dialect layout source.content).length) := by
  obtain ⟨h₀, hcontent, rfl, hlayout', rfl⟩ := indexed_open hopen
  rw [hlayout] at hlayout'
  cases hlayout'
  obtain ⟨h, hview, hall⟩ := indexed_of_run h₀ hrun
  rw [hcontent] at hall
  refine ⟨hall, ?_, ?_, ?_⟩
  · rintro before c e after rfl
    obtain ⟨s, t, hbefore, hstep, -⟩ := hrun.around
    exact ⟨s, t, hbefore, hstep, call_blames (indexed_of_run h₀ hbefore).1 hstep⟩
  · rw [h.mark, h.header, hview.content, hview.dialect, hview.layout, hcontent]
    exact tiles_whole _ _ _
  · have hcount : (dataRecords r₀.dialect r₀.layout source.content).length = r.count := by
      rw [dataRecords, recordsFrom_length, count, hview.content, hview.dialect, hview.layout,
        hcontent]
    rw [hcount]
    unfold recordCount
    cases htotal : r.totalRecords with
    | none => exact h.indexed
    | some total => exact (h.total total htotal).1

/-- Comma, double quote, header, `latin1`. -/
def commaDialect : Dialect := ⟨44, some 34, true, latin1⟩

/-- `a,b`, `1`, `2` and an unterminated `3`, from a source whose call number
`failing` fails. -/
def sampleSource (failing : ℕ) : Source where
  content := [97, 44, 98, 10, 49, 10, 50, 10, 51]
  answers := fun i => if i = failing then .fail "gone" else .ok
  calls := 0
  length_lt := by decide

/-- Pages of one record in windows of three bytes; the second of three reads
fails. -/
theorem pages_with_failed_read :
    ∃ layout r₀ r history, Layout.forDialect commaDialect = .ok layout ∧
      openReader (sampleSource 3) commaDialect ⟨1, 3, by decide, by decide⟩ = .ok r₀ ∧
      Run (ExecStep call) r₀ history r ∧
      history.map Prod.snd = [ .page ⟨2, [⟨8, 9, [['3']], false⟩]⟩, .failed (.source "gone"),
        .page ⟨0, [⟨4, 6, [['1']], false⟩]⟩] ∧
      ∀ entry ∈ history, Answers (sampleSource 3).content
        (dataRecords commaDialect layout (sampleSource 3).content) 1 entry := by
  have heval : ((openReader (sampleSource 3) commaDialect ⟨1, 3, by decide, by decide⟩).toOption.bind
      fun r => runInputs call r [.readPage 2, .readPageWithBytes 2 1, .readPage 0]).map
        (fun result => result.2.map Prod.snd) = some [
        .page ⟨2, [⟨8, 9, [['3']], false⟩]⟩,
        .failed (.source "gone"),
        .page ⟨0, [⟨4, 6, [['1']], false⟩]⟩] := by decide +kernel
  obtain ⟨⟨r, history⟩, hbind, hresults⟩ := Option.map_eq_some_iff.mp heval
  obtain ⟨r₀, hopen, hinputs⟩ := Option.bind_eq_some_iff.mp hbind
  have hopen := toOption_eq_some.mp hopen
  have hrun := run_of_runInputs _ hinputs
  have hlayout := (indexed_open hopen).2.2.2.1
  exact ⟨r₀.layout, r₀, r, history, hlayout, hopen, hrun, hresults,
    (pages_of_run hlayout hopen hrun).1⟩

end PagedReader

end Dbflux.Delimited

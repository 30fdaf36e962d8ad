import Dbflux.Delimited.Writer

/-!
# Records as a body and a terminator

A record that is not cut off by the end of the source is a body, which the
scanner reads to a point where a delimiter or a line break would end the
field, followed by one of the line breaks. Where such a record ends depends on
what follows it only when its terminator is a lone carriage return.

Results:
* `shaped_of_endsBefore`: every record the scanner finds has this form, unless
  it is the last one and ends inside quotes.
* `Shaped.terminatorOf`, `Shaped.contentOf`: the writer's `terminator_length`
  finds the terminator.
* `Shaped.splitFields`: the terminator does not belong to any field.
* `rawRecords_of_chain`: a chain of records that follow each other is read
  back record by record.
-/

namespace Dbflux.Delimited

open Lib List

variable {layout : Layout} {state state' : ScanState} {us vs : List ℕ}

/-! ## Open states -/

/-- A delimiter here ends the field, and a line break the record. -/
def ScanState.IsOpen : ScanState → Prop
  | .fieldStart | .unquoted | .quoteInQuoted => True
  | .quoted | .afterCarriageReturn => False

instance : DecidablePred ScanState.IsOpen := fun state => by
  cases state <;> simp only [ScanState.IsOpen] <;> infer_instance

theorem step_lineFeed (h : state.IsOpen) : step layout state lineFeed = (state, .recordEnd) := by
  cases state <;> first | exact h.elim | simp [step]

theorem step_carriageReturn (h : state.IsOpen) :
    step layout state carriageReturn = (.afterCarriageReturn, .structural) := by
  cases state <;> first | exact h.elim | simp [step, lineFeed, carriageReturn]

theorem step_delimiter (h : state.IsOpen) :
    step layout state layout.delimiter = (.fieldStart, .fieldEnd) := by
  have hne := layout.delimiter_ne
  cases state <;> first | exact h.elim | simp [step, hne.1, hne.2]

theorem step_after_lineFeed :
    step layout .afterCarriageReturn lineFeed = (.afterCarriageReturn, .recordEnd) := by
  simp [step]

variable {u : ℕ}

theorem step_after_other (h : u ≠ lineFeed) :
    step layout .afterCarriageReturn u = (.afterCarriageReturn, .nextRecord) := by
  simp [step, h]

theorem advance_snoc : advance layout state (us ++ [u]) = some state' ↔
      ∃ mid, advance layout state us = some mid ∧ (step layout mid u).2.Continues ∧
        (step layout mid u).1 = state' := by
  induction us generalizing state with
  | nil =>
    rw [nil_append, advance_cons]
    simp [advance]
  | cons v us ih =>
    rw [cons_append, advance_cons, ih]
    constructor
    · rintro ⟨hv, mid, hmid, hu⟩
      exact ⟨mid, advance_cons.mpr ⟨hv, hmid⟩, hu⟩
    · rintro ⟨mid, hmid, hu⟩
      obtain ⟨hv, hrest⟩ := advance_cons.mp hmid
      exact ⟨hv, mid, hrest, hu⟩

/-- A line break inside a record is inside quotes. -/
theorem step_break_continues (hu : u = lineFeed ∨ u = carriageReturn)
    (hcont : (step layout state u).2.Continues) (hopen : (step layout state u).1.IsOpen) :
    False := by
  have hquote : layout.quote ≠ some u := by
    intro hq
    have := layout.quote_ne u hq
    rcases hu with rfl | rfl
    · exact this.1 rfl
    · exact this.2.1 rfl
  rcases hu with rfl | rfl
  · cases state <;> simp_all [step, Step.Continues, ScanState.IsOpen]
  · cases state <;> simp_all [step, Step.Continues, ScanState.IsOpen, lineFeed, carriageReturn]

theorem foldl_of_advance (h : advance layout state us = some state') :
    us.foldl (fun state unit => (step layout state unit).1) state = state' := by
  induction us generalizing state with
  | nil => exact Option.some.inj h
  | cons u us ih => exact ih (advance_cons.mp h).2

/-! ## Shapes -/

/-- What a record may end with. -/
def terminators : List (List ℕ) :=
  [[], [lineFeed], [carriageReturn], [carriageReturn, lineFeed]]

theorem mem_terminators {term : List ℕ} : term ∈ terminators ↔
    term = [] ∨ term = [lineFeed] ∨ term = [carriageReturn] ∨ term = [carriageReturn, lineFeed] := by
  simp [terminators]

/-- The record is a body that leads to an open state, followed by a
terminator. -/
structure Shaped (layout : Layout) (record : Bytes) (body term : List ℕ) : Prop where
  whole : layout.width.size ∣ record.length
  units : layout.width.units record = body ++ term
  isOpen : ∃ state, advance layout .fieldStart body = some state ∧ state.IsOpen
  term : term ∈ terminators

/-- Bytes made of whole units are the bytes of their units. -/
theorem eq_flatMap_units {bytes : Bytes} (h : layout.width.size ∣ bytes.length) :
    bytes = (layout.width.units bytes).flatMap layout.width.unitBytes := by
  have := layout.width.flatMap_units bytes
  rw [(layout.width.half_eq_nil_iff bytes).mpr h, append_nil] at this
  exact this.symm

theorem length_of_whole {bytes : Bytes} (h : layout.width.size ∣ bytes.length) :
    bytes.length = layout.width.size * (layout.width.units bytes).length := by
  have := layout.width.length_eq bytes
  rwa [(layout.width.half_eq_nil_iff bytes).mpr h, length_nil, Nat.add_zero] at this

section Shaped

variable {record q : Bytes} {body term : List ℕ}

variable (h : Shaped layout record body term)
include h

/-- A terminator that is not a lone carriage return settles the end of the
record; a lone carriage return does so unless a line feed follows. -/
theorem Shaped.settled (hterm : term ≠ []) (hnext : term = [carriageReturn] →
      ∃ u rest, layout.width.units q = u :: rest ∧ u ≠ lineFeed) :
    recordLength (record ++ q) layout false = some record.length := by
  obtain ⟨state, hadv, hopen⟩ := h.isOpen
  rw [recordLength_false, layout.width.units_append _ h.whole, h.units, append_assoc,
    recordLengthFrom_append 0 hadv, length_of_whole h.whole, h.units, length_append]
  rcases mem_terminators.mp h.term with rfl | rfl | rfl | rfl
  · exact absurd rfl hterm
  · simp [recordLengthFrom, step_lineFeed hopen, Nat.mul_add]
  · obtain ⟨u, rest, hunits, hu⟩ := hnext rfl
    simp [hunits, recordLengthFrom, step_carriageReturn hopen, step_after_other hu, Nat.mul_add]
  · simp only [cons_append, nil_append, recordLengthFrom, step_carriageReturn hopen,
      step_after_lineFeed, length_cons, length_nil, Nat.mul_add, Nat.mul_one, Nat.zero_add,
      Nat.add_assoc]

/-- A record without a terminator ends only where the source does. -/
theorem Shaped.single (hne : record ≠ []) : EndsBefore layout record [] := by
  by_cases hsettled : recordLength record layout false = none
  · rw [EndsBefore, append_nil]
    exact recordLength_true_of_unsettled hsettled hne
  · -- a settled end is the end of the terminator
    obtain ⟨n, hn⟩ := Option.ne_none_iff_exists'.mp hsettled
    obtain ⟨state, hadv, hopen⟩ := h.isOpen
    have hlen := recordLength_false.symm.trans hn
    rw [h.units, recordLengthFrom_append 0 hadv] at hlen
    rcases mem_terminators.mp h.term with rfl | rfl | rfl | rfl
    · cases hlen
    · have hsettled := h.settled (q := []) (by simp) (by simp [lineFeed, carriageReturn])
      rw [append_nil] at hsettled
      exact recordLength_append hsettled [] true
    · rw [recordLengthFrom, step_carriageReturn hopen] at hlen
      cases hlen
    · have hsettled := h.settled (q := []) (by simp) (by simp)
      rw [append_nil] at hsettled
      exact recordLength_append hsettled [] true

omit h in
/-- The units from the end of bytes made of whole units. -/
theorem unitFromEnd_eq (hwhole : layout.width.size ∣ record.length) {count : ℕ} (hcount : 0 < count) :
    (if count * layout.width.size ≤ record.length then
      layout.width.unitAt record (record.length - count * layout.width.size) else none) =
      (layout.width.units record).reverse[count - 1]? := by
  have hlen := length_of_whole hwhole
  have hsize := layout.width.size_pos
  by_cases hle : count ≤ (layout.width.units record).length
  · rw [if_pos, hlen, Nat.mul_comm count, ← Nat.mul_sub, layout.width.unitAt_eq,
      getElem?_reverse (by omega)]
    · congr 1
      omega
    · rw [hlen, Nat.mul_comm]
      exact Nat.mul_le_mul_left _ hle
  · rw [if_neg, getElem?_eq_none]
    · rw [length_reverse]
      omega
    · rw [hlen, Nat.mul_comm, Nat.not_le]
      exact Nat.mul_lt_mul_of_pos_left (by omega) hsize

omit h in
/-- `terminator_length` looks at the last two units. -/
theorem terminatorLength_eq (hwhole : layout.width.size ∣ record.length) :
    terminatorLength record layout = (if (layout.width.units record).reverse[0]? = some lineFeed ∧
          (layout.width.units record).reverse[1]? = some carriageReturn then 2 * layout.width.size
      else if (layout.width.units record).reverse[0]? = some lineFeed ∨
          (layout.width.units record).reverse[0]? = some carriageReturn then layout.width.size
      else 0) := by
  unfold terminatorLength
  simp only [Nat.mod_eq_zero_of_dvd hwhole, ne_eq, not_true_eq_false, if_false,
    unitFromEnd_eq hwhole Nat.one_pos, unitFromEnd_eq hwhole Nat.two_pos]

/-- `terminator_length` finds the terminator. -/
theorem Shaped.terminatorLength :
    Delimited.terminatorLength record layout = layout.width.size * term.length := by
  obtain ⟨state, hadv, hopen⟩ := h.isOpen
  have hbody : ∀ u, body.reverse[0]? = some u → u ≠ lineFeed ∧ u ≠ carriageReturn := by
    intro u hu
    rcases eq_nil_or_concat body with rfl | ⟨init, v, rfl⟩
    · cases hu
    · rw [concat_eq_append] at hadv hu
      rw [reverse_append] at hu
      cases hu
      obtain ⟨mid, -, hcont, rfl⟩ := advance_snoc.mp hadv
      exact ⟨fun hu => step_break_continues (.inl hu) hcont hopen,
        fun hu => step_break_continues (.inr hu) hcont hopen⟩
  rw [terminatorLength_eq h.whole, h.units, reverse_append]
  have hne : lineFeed ≠ carriageReturn := by decide
  rcases mem_terminators.mp h.term with rfl | rfl | rfl | rfl
  · have hlf : body.reverse[0]? ≠ some lineFeed := fun heq => (hbody _ heq).1 rfl
    have hcr : body.reverse[0]? ≠ some carriageReturn := fun heq => (hbody _ heq).2 rfl
    simp [hlf, hcr]
  · have hcr : body.reverse[0]? ≠ some carriageReturn := fun heq => (hbody _ heq).2 rfl
    simp only [reverse_singleton, singleton_append, getElem?_cons_zero,
      getElem?_cons_succ, length_singleton, Nat.mul_one, true_and, true_or, if_true]
    rw [if_neg hcr]
  · simp [hne.symm]
  · simp [Nat.mul_comm]

theorem Shaped.contentOf :
    Delimited.contentOf layout record = body.flatMap layout.width.unitBytes := by
  rw [Delimited.contentOf, h.terminatorLength, length_of_whole h.whole, ← Nat.mul_sub, h.units,
    (layout.width.split_eq_flatMap (by rw [h.units]; omega)).1, h.units]
  rw [length_append, Nat.add_sub_cancel, take_left]

theorem Shaped.terminatorOf :
    Delimited.terminatorOf layout record = term.flatMap layout.width.unitBytes := by
  rw [Delimited.terminatorOf, h.terminatorLength, length_of_whole h.whole, ← Nat.mul_sub, h.units,
    (layout.width.split_eq_flatMap (by rw [h.units]; omega)).2, h.units,
    (layout.width.half_eq_nil_iff record).mpr h.whole, append_nil]
  rw [length_append, Nat.add_sub_cancel, drop_left]

omit h

end Shaped

/-! ## Every record the scanner finds has a shape -/

section Found

variable {p x : Bytes}

/-- Up to a carriage return outside quotes. -/
theorem split_afterCarriageReturn (h : advance layout .fieldStart us = some .afterCarriageReturn) :
    ∃ body, us = body ++ [carriageReturn] ∧
      ∃ state, advance layout .fieldStart body = some state ∧ state.IsOpen := by
  rcases eq_nil_or_concat us with rfl | ⟨body, u, rfl⟩
  · cases h
  · rw [concat_eq_append] at h ⊢
    obtain ⟨mid, hmid, hcont, hnext⟩ := advance_snoc.mp h
    obtain ⟨rfl, hopen⟩ : u = carriageReturn ∧ mid.IsOpen := by
      unfold step at hcont hnext
      cases mid <;> simp only at hcont hnext <;> split_ifs at hcont hnext <;>
        simp_all [Step.Continues, ScanState.IsOpen]
    exact ⟨body, rfl, mid, hmid, hopen⟩

theorem isOpen_or_of_recordEnd (h : (step layout state u).2 = .recordEnd) :
    u = lineFeed ∧ (state.IsOpen ∨ state = .afterCarriageReturn) := by
  unfold step at h
  cases state <;> simp only at h <;> split_ifs at h <;> simp_all [ScanState.IsOpen]

/-- A record that the end of the source does not cut off inside quotes is a
body and a terminator, and has one if anything follows it. -/
theorem shaped_of_endsBefore (h : EndsBefore layout p x) (hwhole : layout.width.size ∣ p.length)
    (hclosed : x ≠ [] ∨ endsInsideQuotes p layout = false) :
    ∃ body term, Shaped layout p body term ∧ (x ≠ [] → term ≠ []) := by
  have hsize := layout.width.size_pos
  have hlen := length_of_whole hwhole
  have hends := recordLength_eq_some.mp h
  rcases recordLengthFrom_cases layout .fieldStart (layout.width.units (p ++ x)) with
    ⟨last, hadv, hnone⟩ | ⟨body, u, rest, last, hus, hadv, hend⟩
  · -- the record takes all that is left
    simp only [hnone 0, reduceCtorEq, false_or, true_and, length_append] at hends
    obtain rfl : x = [] := length_eq_zero_iff.mp (by omega)
    rw [append_nil] at hadv
    by_cases hcr : last = .afterCarriageReturn
    · subst hcr
      obtain ⟨body, hbody, hopen⟩ := split_afterCarriageReturn hadv
      exact ⟨body, [carriageReturn], ⟨hwhole, hbody, hopen, by simp [terminators]⟩, by simp⟩
    · have hquoted : last ≠ .quoted := by
        rintro rfl
        have := hclosed.resolve_left (by simp)
        simp [endsInsideQuotes, foldl_of_advance hadv] at this
      refine ⟨layout.width.units p, [], ⟨hwhole, by simp, ⟨last, hadv, ?_⟩, by simp [terminators]⟩,
        by simp⟩
      cases last <;> simp_all [ScanState.IsOpen]
  · -- the record's units are the first of those scanned
    have hunits : layout.width.units p =
        (layout.width.units (p ++ x)).take (layout.width.units p).length := by
      rw [layout.width.units_append x hwhole, take_left]
    rcases hend with ⟨hstep, hlength⟩ | ⟨hstep, hlength⟩
    · simp only [hlength 0, Nat.zero_add, Option.some.injEq, reduceCtorEq, false_and, or_false,
        hlen] at hends
      have hcount : body.length + 1 = (layout.width.units p).length :=
        Nat.eq_of_mul_eq_mul_left hsize hends
      have hp : layout.width.units p = body ++ [u] := by
        rw [hunits, hus, ← hcount, append_cons, take_left' (by simp)]
      obtain ⟨rfl, hopen | rfl⟩ := isOpen_or_of_recordEnd hstep
      · exact ⟨body, [lineFeed], ⟨hwhole, hp, ⟨last, hadv, hopen⟩, by simp [terminators]⟩, by simp⟩
      · obtain ⟨body', rfl, hopen⟩ := split_afterCarriageReturn hadv
        refine ⟨body', [carriageReturn, lineFeed], ⟨hwhole, ?_, hopen, by simp [terminators]⟩,
          by simp⟩
        rw [hp, append_assoc]
        rfl
    · simp only [hlength 0, Nat.zero_add, Option.some.injEq, reduceCtorEq, false_and, or_false,
        hlen] at hends
      have hcount : body.length = (layout.width.units p).length :=
        Nat.eq_of_mul_eq_mul_left hsize hends
      have hp : layout.width.units p = body := by rw [hunits, hus, ← hcount, take_left]
      obtain ⟨rfl, -⟩ := step_nextRecord hstep
      obtain ⟨body', hbody', hopen⟩ := split_afterCarriageReturn hadv
      exact ⟨body', [carriageReturn], ⟨hwhole, hp.trans hbody', hopen, by simp [terminators]⟩,
        by simp⟩

/-- A line feed after a record's carriage return would belong to the record. -/
theorem EndsBefore.next_ne_lineFeed (h : EndsBefore layout p x)
    (hreturn : (layout.width.units p).getLast? = some carriageReturn) :
    (layout.width.units x).head? ≠ some lineFeed := by
  intro hfeed
  obtain ⟨rest, hrest⟩ := head?_eq_some_iff.mp hfeed
  have hne : x ≠ [] := by
    rintro rfl
    cases hwidth : layout.width <;> rw [hwidth] at hrest <;> cases hrest
  have hwhole := h.dvd_length hne
  obtain ⟨body, term, hshape, hterm⟩ := shaped_of_endsBefore h hwhole (.inl hne)
  obtain ⟨state, hadv, hopen⟩ := hshape.isOpen
  have hlone : term = [carriageReturn] := by
    rw [hshape.units, getLast?_append_of_ne_nil _ (hterm hne)] at hreturn
    rcases mem_terminators.mp hshape.term with rfl | rfl | rfl | rfl <;>
      simp_all [lineFeed, carriageReturn]
  have hends := h
  unfold EndsBefore recordLength at hends
  rw [layout.width.units_append _ hwhole, hshape.units, hlone, hrest, append_assoc,
    recordLengthFrom_append 0 hadv, singleton_append, recordLengthFrom,
    step_carriageReturn hopen] at hends
  simp only [recordLengthFrom, step_after_lineFeed, Option.some.injEq] at hends
  have hlength := length_of_whole hwhole
  rw [hshape.units, hlone, length_append, length_singleton, Nat.mul_add, Nat.mul_one] at hlength
  have hsize := layout.width.size_pos
  omega

end Found

/-! ## The fields of a shaped record -/

/-- The fields that `units` ends, and the one it is in the middle of, from a
scan that has read `current` of a field. -/
def gather (layout : Layout) (state : ScanState) (current : Bytes) : List ℕ → List Bytes × Bytes
  | [] => ([], current)
  | unit :: rest =>
    match step layout state unit with
    | (state, .literal) => gather layout state (current ++ layout.width.unitBytes unit) rest
    | (state, .structural) => gather layout state current rest
    | (state, .fieldEnd) =>
      let (ended, last) := gather layout state [] rest
      (current :: ended, last)
    | (_, .recordEnd) | (_, .nextRecord) => ([], current)

/-- What follows a body is gathered, and split into fields, from where the body ends. -/
theorem gather_append (current : Bytes) (h : advance layout state us = some state') (vs : List ℕ) :
    gather layout state current (us ++ vs) = ((gather layout state current us).1 ++
        (gather layout state' (gather layout state current us).2 vs).1,
        (gather layout state' (gather layout state current us).2 vs).2) ∧
    ∀ half, splitFieldsFrom layout half state current (us ++ vs) =
      (gather layout state current us).1 ++
        splitFieldsFrom layout half state' (gather layout state current us).2 vs := by
  induction us generalizing state current with
  | nil =>
    cases h
    exact ⟨rfl, fun _ => rfl⟩
  | cons u us ih =>
    obtain ⟨hcont, hrest⟩ := advance_cons.mp h
    simp only [cons_append, splitFieldsFrom, gather]
    rcases hstep : step layout state u with ⟨next, kind⟩
    rw [hstep] at hcont hrest
    cases kind with
    | literal | structural => exact ih _ hrest
    | fieldEnd => simp only [ih _ hrest, cons_append, implies_true, and_self]
    | recordEnd | nextRecord => exact hcont.elim

/-- The fields of a body. -/
def bodyFields (layout : Layout) (body : List ℕ) : List Bytes :=
  (gather layout .fieldStart [] body).1 ++ [(gather layout .fieldStart [] body).2]

/-- The terminator belongs to no field. -/
theorem Shaped.splitFields {record : Bytes} {body term : List ℕ}
    (h : Shaped layout record body term) :
    Delimited.splitFields record layout = bodyFields layout body := by
  obtain ⟨state, hadv, hopen⟩ := h.isOpen
  rw [Delimited.splitFields, (layout.width.half_eq_nil_iff record).mpr h.whole, h.units,
    (gather_append _ hadv _).2, bodyFields]
  rcases mem_terminators.mp h.term with rfl | rfl | rfl | rfl
  · simp [splitFieldsFrom]
  · simp [splitFieldsFrom, step_lineFeed hopen]
  · simp [splitFieldsFrom, step_carriageReturn hopen]
  · simp [splitFieldsFrom, step_carriageReturn hopen, step_after_lineFeed]

/-! ## Chains of records -/

/-- The end of `p` is settled by the time `q` has been read after it. -/
def Follows (layout : Layout) (p q : Bytes) : Prop :=
  recordLength (p ++ q) layout false = some p.length

/-- Records that follow each other are read back record by record. -/
theorem rawRecords_of_chain {records : List Bytes} (hchain : records.IsChain (Follows layout))
    (hlast : ∀ p ∈ records.getLast?, EndsBefore layout p []) :
    rawRecords layout records.flatten = records := by
  induction records with
  | nil => rfl
  | cons p rest ih =>
    cases rest with
    | nil =>
      have := (hlast p rfl).rawRecords
      simpa using this
    | cons q rest =>
      obtain ⟨hfollows, hrest⟩ := isChain_cons_cons.mp hchain
      have hp : EndsBefore layout p ((q :: rest).flatten) := by
        rw [EndsBefore, flatten_cons, ← append_assoc]
        exact recordLength_append hfollows _ true
      rw [flatten_cons, hp.rawRecords, ih hrest fun p hp => hlast p (by rwa [getLast?_cons_cons])]

end Dbflux.Delimited

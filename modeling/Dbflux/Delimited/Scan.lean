import Dbflux.Delimited.Layout

/-!
# The record scanner

One state machine, `step` (`dbflux_delimited/src/reader.rs`, lines
285–330), decides what every code unit means. `record_length`, `split_fields`
and `ends_inside_quotes` run it over the units of a byte string. The loops
`while let Some(unit) = layout.unit_at(bytes, position) { …; position +=
unit_size; }` are recursions over the list of units (`UnitWidth.unitAt_eq`).

Results:
* `recordLength_append`: a record length that is settled within some bytes
  does not depend on the bytes after them.
* `rawRecords_flatten`: the records of a byte string tile it.
* `Leads.replace`: what follows a run of records can be replaced by
  anything in front of which the last of them still ends.
-/

namespace Dbflux.Delimited

open Lib List

/-! ## The state machine -/

/-- `State` (lines 244–262). -/
inductive ScanState where
  | fieldStart
  | unquoted
  | quoted
  | quoteInQuoted
  | afterCarriageReturn
  deriving DecidableEq, Repr

/-- `Step` (lines 266–282). -/
inductive Step where
  | literal
  | structural
  | fieldEnd
  | recordEnd
  | nextRecord
  deriving DecidableEq, Repr

/-- `step` (lines 285–327): the state after one unit and what the
unit turned out to be. -/
def step (layout : Layout) (state : ScanState) (unit : ℕ) : ScanState × Step :=
  let isQuote := layout.quote = some unit
  match state with
  | .afterCarriageReturn =>
    if unit = lineFeed then (state, .recordEnd) else (state, .nextRecord)
  | .quoted => if isQuote then (.quoteInQuoted, .structural) else (state, .literal)
  | .fieldStart | .unquoted | .quoteInQuoted =>
    if unit = lineFeed then (state, .recordEnd)
    else if unit = carriageReturn then (.afterCarriageReturn, .structural)
    else if unit = layout.delimiter then (.fieldStart, .fieldEnd)
    else if isQuote ∧ state = .fieldStart then (.quoted, .structural)
    else if isQuote ∧ state = .quoteInQuoted then (.quoted, .literal)
    else (.unquoted, .literal)

/-- The loop of `record_length` from `position` on, over the units left. -/
def recordLengthFrom (layout : Layout) (state : ScanState) (position : ℕ) : List ℕ → Option ℕ
  | [] => none
  | unit :: rest =>
    match step layout state unit with
    | (_, .recordEnd) => some (position + layout.width.size)
    | (_, .nextRecord) => some position
    | (state, .literal) | (state, .structural) | (state, .fieldEnd) =>
      recordLengthFrom layout state (position + layout.width.size) rest

/-- `record_length` (lines 337–358). -/
def recordLength (bytes : Bytes) (layout : Layout) (atEndOfSource : Bool) : Option ℕ :=
  match recordLengthFrom layout .fieldStart 0 (layout.width.units bytes) with
  | some length => some length
  | none => if atEndOfSource && !bytes.isEmpty then some bytes.length else none

/-- The loop of `split_fields` over the units left, with the bytes of the
field read so far. `half` is what follows the last full unit. -/
def splitFieldsFrom (layout : Layout) (half : Bytes) (state : ScanState) (current : Bytes) :
    List ℕ → List Bytes
  | [] => [current ++ half]
  | unit :: rest =>
    match step layout state unit with
    | (state, .literal) =>
      splitFieldsFrom layout half state (current ++ layout.width.unitBytes unit) rest
    | (state, .structural) => splitFieldsFrom layout half state current rest
    | (state, .fieldEnd) => current :: splitFieldsFrom layout half state [] rest
    | (_, .recordEnd) | (_, .nextRecord) => [current]

/-- `split_fields` (lines 362–400). -/
def splitFields (record : Bytes) (layout : Layout) : List Bytes :=
  splitFieldsFrom layout (layout.width.half record) .fieldStart [] (layout.width.units record)

/-- `decode_fields` (lines 404–422). -/
def decodeFields (record : Bytes) (layout : Layout) (encoding : Encoding) : List Text × Bool :=
  let decoded := (splitFields record layout).map encoding.decode
  (decoded.map Prod.fst, decoded.any Prod.snd)

/-- `ends_inside_quotes` (lines 426–438). -/
def endsInsideQuotes (record : Bytes) (layout : Layout) : Bool :=
  decide ((layout.width.units record).foldl (fun state unit => (step layout state unit).1)
    .fieldStart = .quoted)

/-- `byte_order_mark` (lines 441–451). -/
def byteOrderMark (encoding : Encoding) : Bytes :=
  match encoding.kind with
  | .utf8 => [0xEF, 0xBB, 0xBF]
  | .utf16LE => [0xFF, 0xFE]
  | .utf16BE => [0xFE, 0xFF]
  | _ => []

/-! ## The state a run of units leads to -/

/-- The state after `units`, when none of them ends the record. -/
def advance (layout : Layout) (state : ScanState) : List ℕ → Option ScanState
  | [] => some state
  | unit :: rest =>
    match step layout state unit with
    | (_, .recordEnd) | (_, .nextRecord) => none
    | (state, .literal) | (state, .structural) | (state, .fieldEnd) => advance layout state rest

variable {layout : Layout} {state state' : ScanState} {us vs : List ℕ}

/-- The kinds of step after which the record goes on. -/
def Step.Continues : Step → Prop
  | .literal | .structural | .fieldEnd => True
  | .recordEnd | .nextRecord => False

instance : DecidablePred Step.Continues := fun kind => by
  cases kind <;> simp only [Step.Continues] <;> infer_instance

variable {u length : ℕ} {bytes : Bytes} {before : List Bytes}

theorem advance_cons : advance layout state (u :: us) = some state' ↔
      (step layout state u).2.Continues ∧ advance layout (step layout state u).1 us = some state' := by
  simp only [advance]
  rcases step layout state u with ⟨next, kind⟩
  cases kind <;> simp [Step.Continues]

theorem recordLengthFrom_cons (position : ℕ) (h : (step layout state u).2.Continues) :
    recordLengthFrom layout state position (u :: us) =
      recordLengthFrom layout (step layout state u).1 (position + layout.width.size) us := by
  simp only [recordLengthFrom]
  rcases hstep : step layout state u with ⟨next, kind⟩
  rw [hstep] at h
  cases kind <;> first | rfl | exact h.elim

theorem advance_append (h : advance layout state us = some state') :
    advance layout state (us ++ vs) = advance layout state' vs := by
  induction us generalizing state with
  | nil =>
    cases h
    rfl
  | cons u us ih =>
    obtain ⟨hcont, hrest⟩ := advance_cons.mp h
    rw [← ih hrest]
    refine Option.ext fun s => ?_
    rw [cons_append, advance_cons]
    exact and_iff_right hcont

/-- The scanner over units none of which ends the record. -/
theorem recordLengthFrom_append (position : ℕ) (h : advance layout state us = some state') :
    recordLengthFrom layout state position (us ++ vs) =
      recordLengthFrom layout state' (position + layout.width.size * us.length) vs := by
  induction us generalizing state position with
  | nil =>
    cases h
    rfl
  | cons u us ih =>
    obtain ⟨hcont, hrest⟩ := advance_cons.mp h
    rw [cons_append, recordLengthFrom_cons position hcont, ih _ hrest, length_cons, Nat.mul_succ]
    congr 1
    omega

/-- Either no unit ends the record, or one does: after it (a line feed) or
before it (the first unit after a carriage return). -/
theorem recordLengthFrom_cases (layout : Layout) (state : ScanState) (us : List ℕ) :
    (∃ last, advance layout state us = some last ∧
      ∀ position, recordLengthFrom layout state position us = none) ∨
    (∃ body u rest last, us = body ++ u :: rest ∧ advance layout state body = some last ∧
      (((step layout last u).2 = .recordEnd ∧ ∀ position,
          recordLengthFrom layout state position us =
            some (position + layout.width.size * (body.length + 1))) ∨
       ((step layout last u).2 = .nextRecord ∧ ∀ position,
          recordLengthFrom layout state position us =
            some (position + layout.width.size * body.length)))) := by
  induction us generalizing state with
  | nil => exact .inl ⟨state, rfl, fun _ => rfl⟩
  | cons u us ih =>
    by_cases hcont : (step layout state u).2.Continues
    · rcases ih (step layout state u).1 with ⟨last, hadv, hnone⟩ |
        ⟨body, v, rest, last, rfl, hadv, hend⟩
      · refine .inl ⟨last, advance_cons.mpr ⟨hcont, hadv⟩, fun position => ?_⟩
        rw [recordLengthFrom_cons position hcont]
        exact hnone _
      · refine .inr ⟨u :: body, v, rest, last, rfl, advance_cons.mpr ⟨hcont, hadv⟩, ?_⟩
        refine hend.imp (.imp_right fun hlen position => ?_) (.imp_right fun hlen position => ?_)
        all_goals
          rw [recordLengthFrom_cons position hcont, hlen]
          simp only [length_cons, Nat.mul_succ]
          congr 1
          omega
    · refine .inr ⟨[], u, us, state, rfl, rfl, ?_⟩
      simp only [recordLengthFrom]
      rcases hstep : step layout state u with ⟨next, kind⟩
      cases kind <;> simp_all [Step.Continues]

/-- A length that is settled is settled for every continuation. -/
theorem recordLengthFrom_prefix {position : ℕ}
    (h : recordLengthFrom layout state position us = some length) (vs : List ℕ) :
    recordLengthFrom layout state position (us ++ vs) = some length := by
  induction us generalizing state position with
  | nil => cases h
  | cons u us ih =>
    by_cases hcont : (step layout state u).2.Continues
    · rw [recordLengthFrom_cons position hcont] at h
      rw [cons_append, recordLengthFrom_cons position hcont, ih h]
    · simp only [cons_append, recordLengthFrom] at h ⊢
      rcases hstep : step layout state u with ⟨next, kind⟩
      cases kind <;> simp_all [Step.Continues]

/-! ## The length of the first record -/

theorem step_nextRecord (h : (step layout state u).2 = .nextRecord) :
    state = .afterCarriageReturn ∧ u ≠ lineFeed := by
  unfold step at h
  cases state <;> (simp only at h; split_ifs at h <;> simp_all)

theorem recordLength_eq_some {atEnd : Bool} : recordLength bytes layout atEnd = some length ↔
    recordLengthFrom layout .fieldStart 0 (layout.width.units bytes) = some length ∨
    recordLengthFrom layout .fieldStart 0 (layout.width.units bytes) = none ∧ atEnd = true ∧
      bytes ≠ [] ∧ bytes.length = length := by
  unfold recordLength
  split <;> simp_all [and_assoc]

theorem recordLength_false : recordLength bytes layout false =
    recordLengthFrom layout .fieldStart 0 (layout.width.units bytes) := by
  unfold recordLength
  split <;> simp_all

/-- A record length that is settled within `bytes` stays the same when more
bytes follow. -/
theorem recordLength_append (h : recordLength bytes layout false = some length) (more : Bytes)
    (atEnd : Bool) :
    recordLength (bytes ++ more) layout atEnd = some length := by
  obtain ⟨vs, hvs⟩ := layout.width.units_prefix bytes more
  have hprefix := recordLengthFrom_prefix (recordLength_false.symm.trans h) vs
  unfold recordLength
  rw [← hvs, hprefix]

/-- At the end of the source an unsettled record takes all that is left. -/
theorem recordLength_true_of_unsettled (h : recordLength bytes layout false = none)
    (hne : bytes ≠ []) :
    recordLength bytes layout true = some bytes.length :=
  recordLength_eq_some.mpr (.inr ⟨recordLength_false.symm.trans h, rfl, hne, rfl⟩)

theorem recordLength_nil (atEnd : Bool) : recordLength [] layout atEnd = none := by
  simp [recordLength, recordLengthFrom]

theorem recordLength_true_isSome (layout : Layout) (hne : bytes ≠ []) :
    ∃ length, recordLength bytes layout true = some length := by
  cases h : recordLength bytes layout false with
  | none => exact ⟨_, recordLength_true_of_unsettled h hne⟩
  | some length =>
    have := recordLength_append h [] true
    exact ⟨length, by rwa [append_nil] at this⟩

/-- A record is never empty and never longer than the bytes it is read from. -/
theorem recordLength_bounds {atEnd : Bool} (h : recordLength bytes layout atEnd = some length) :
    0 < length ∧ length ≤ bytes.length := by
  have hsize := layout.width.size_pos
  have htotal := layout.width.length_eq bytes
  obtain h | ⟨-, -, hne, rfl⟩ := recordLength_eq_some.mp h
  swap
  · exact ⟨length_pos_iff.mpr hne, le_rfl⟩
  rcases recordLengthFrom_cases layout .fieldStart (layout.width.units bytes) with
    ⟨last, -, hnone⟩ | ⟨body, u, rest, last, hus, hadv, hend⟩
  · rw [hnone 0] at h
    cases h
  · have hcount : (layout.width.units bytes).length = body.length + (rest.length + 1) := by
      rw [hus]
      simp
    have hle : layout.width.size * (body.length + 1) ≤ bytes.length := by
      calc layout.width.size * (body.length + 1)
          ≤ layout.width.size * (layout.width.units bytes).length :=
            Nat.mul_le_mul_left _ (by omega)
        _ ≤ bytes.length := by omega
    rcases hend with ⟨-, hlen⟩ | ⟨hnext, hlen⟩
    · rw [hlen 0] at h
      cases h
      rw [Nat.mul_succ] at hle ⊢
      omega
    · rw [hlen 0] at h
      cases h
      have hbody : body ≠ [] := by
        rintro rfl
        cases hadv
        exact absurd (step_nextRecord hnext).1 (by decide)
      have hpos : 0 < layout.width.size * body.length :=
        Nat.mul_pos hsize (length_pos_iff.mpr hbody)
      rw [Nat.mul_succ] at hle
      omega

/-! ## The records of a whole byte string -/

/-- The loop of `parse_text` (lines 1073–1091), which splits a
whole buffer into the bytes of its records. Every record takes at least
one byte, so `fuel` as large as the number of bytes is enough. -/
def rawRecordsFrom (layout : Layout) : ℕ → Bytes → List Bytes
  | 0, _ => []
  | fuel + 1, bytes =>
    match recordLength bytes layout true with
    | none => []
    | some length =>
      if 0 < length then bytes.take length :: rawRecordsFrom layout fuel (bytes.drop length)
      else []

/-- The records a byte string is made of, scanned in one buffer. -/
def rawRecords (layout : Layout) (bytes : Bytes) : List Bytes :=
  rawRecordsFrom layout bytes.length bytes

@[simp] theorem rawRecords_nil : rawRecords layout [] = [] := rfl

theorem rawRecordsFrom_eq : ∀ (fuel fuel' : ℕ) (bytes : Bytes), bytes.length ≤ fuel →
    bytes.length ≤ fuel' → rawRecordsFrom layout fuel bytes = rawRecordsFrom layout fuel' bytes := by
  intro fuel
  induction fuel with
  | zero =>
    intro fuel' bytes h _
    have hnil : bytes = [] := length_eq_zero_iff.mp (by omega)
    subst hnil
    cases fuel' with
    | zero => rfl
    | succ fuel' => simp [rawRecordsFrom, recordLength_nil]
  | succ fuel ih =>
    intro fuel' bytes h h'
    cases fuel' with
    | zero =>
      have hnil : bytes = [] := length_eq_zero_iff.mp (by omega)
      subst hnil
      simp [rawRecordsFrom, recordLength_nil]
    | succ fuel' =>
      simp only [rawRecordsFrom]
      cases hlen : recordLength bytes layout true with
      | none => rfl
      | some length =>
        have hpos := (recordLength_bounds hlen).1
        simp only [hpos, if_true]
        rw [ih fuel' (bytes.drop length) (by rw [length_drop]; omega) (by rw [length_drop]; omega)]

/-- The first record is split off, and the rest is scanned afresh. -/
theorem rawRecords_eq (h : recordLength bytes layout true = some length) :
    rawRecords layout bytes = bytes.take length :: rawRecords layout (bytes.drop length) := by
  obtain ⟨hpos, hle⟩ := recordLength_bounds h
  unfold rawRecords
  cases hfuel : bytes.length with
  | zero => omega
  | succ fuel =>
    simp only [rawRecordsFrom, h, hpos, if_true]
    rw [rawRecordsFrom_eq fuel (bytes.drop length).length _ (by rw [length_drop]; omega) le_rfl]

/-- The records are not empty and tile the byte string. -/
theorem rawRecords_tile (layout : Layout) (bytes : Bytes) :
    (rawRecords layout bytes).flatten = bytes ∧ ∀ record ∈ rawRecords layout bytes, record ≠ [] := by
  induction hn : bytes.length using Nat.strong_induction_on generalizing bytes with
  | _ n ih =>
    by_cases hne : bytes = []
    · subst hne
      simp
    · obtain ⟨length, hlen⟩ := recordLength_true_isSome layout hne
      obtain ⟨hpos, hle⟩ := recordLength_bounds hlen
      obtain ⟨hflatten, hrest⟩ :=
        ih (bytes.drop length).length (by rw [length_drop]; omega) _ rfl
      rw [rawRecords_eq hlen, flatten_cons, hflatten, take_append_drop, forall_mem_cons]
      refine ⟨rfl, fun hnil => ?_, hrest⟩
      have := congrArg List.length hnil
      rw [length_take, length_nil] at this
      omega

theorem rawRecords_flatten (layout : Layout) (bytes : Bytes) :
    (rawRecords layout bytes).flatten = bytes := (rawRecords_tile layout bytes).1

theorem rawRecords_ne_nil {record : Bytes} (h : record ∈ rawRecords layout bytes) :
    record ≠ [] := (rawRecords_tile layout bytes).2 record h

/-! ## Where a record ends, depending on what follows it -/

/-- A record `record` ends in front of `after`: the scanner splits exactly it
off. -/
def EndsBefore (layout : Layout) (record after : Bytes) : Prop :=
  recordLength (record ++ after) layout true = some record.length

instance (record after : Bytes) : Decidable (EndsBefore layout record after) :=
  inferInstanceAs (Decidable (_ = _))

variable {p q x y : Bytes}

theorem EndsBefore.ne_nil (h : EndsBefore layout p x) : p ≠ [] :=
  length_pos_iff.mp (recordLength_bounds h).1

theorem EndsBefore.rawRecords (h : EndsBefore layout p x) :
    rawRecords layout (p ++ x) = p :: Delimited.rawRecords layout x := by
  rw [rawRecords_eq h, take_left, drop_left]

theorem endsBefore_of_rawRecords {rest : List Bytes} (h : rawRecords layout bytes = p :: rest) :
    bytes = p ++ rest.flatten ∧ EndsBefore layout p rest.flatten ∧
      rawRecords layout rest.flatten = rest := by
  have hflatten := rawRecords_flatten layout bytes
  rw [h, flatten_cons] at hflatten
  have hne : bytes ≠ [] := by
    rintro rfl
    cases h
  obtain ⟨length, hlen⟩ := recordLength_true_isSome layout hne
  have hsplit := rawRecords_eq hlen
  rw [h] at hsplit
  injection hsplit with hp hrest
  have hplen : p.length = length := by
    rw [hp, length_take_of_le (recordLength_bounds hlen).2]
  have hdrop : bytes.drop length = rest.flatten := by
    rw [← hflatten, ← hplen, drop_left]
  refine ⟨hflatten.symm, ?_, ?_⟩
  · rw [EndsBefore, hflatten, hplen, hlen]
  · rw [← hdrop, ← hrest]

/-- No record length is found before the position the scan has reached. -/
theorem recordLengthFrom_ge {position n : ℕ}
    (h : recordLengthFrom layout state position us = some n) : position ≤ n := by
  rcases recordLengthFrom_cases layout state us with ⟨last, -, hnone⟩ |
    ⟨body, u, rest, last, -, -, ⟨-, hlen⟩ | ⟨-, hlen⟩⟩
  · rw [hnone position] at h
    cases h
  all_goals
    rw [hlen position] at h
    cases h
    omega

/-- Scanning `p ++ y` when `p` is made of whole units: either the end is
settled within `p`, or the scan of `y` goes on in the state `p` leads to. -/
theorem recordLengthFrom_units (hp : layout.width.size ∣ p.length) :
    (∃ n, recordLength p layout false = some n) ∨
    (∃ last, advance layout .fieldStart (layout.width.units p) = some last ∧ ∀ y,
      recordLengthFrom layout .fieldStart 0 (layout.width.units (p ++ y)) =
        recordLengthFrom layout last p.length (layout.width.units y)) := by
  rcases recordLengthFrom_cases layout .fieldStart (layout.width.units p) with ⟨last, hadv, -⟩ |
    ⟨body, u, rest, last, -, -, ⟨-, hlen⟩ | ⟨-, hlen⟩⟩
  · refine .inr ⟨last, hadv, fun y => ?_⟩
    have hlength := layout.width.length_eq p
    rw [(layout.width.half_eq_nil_iff p).mpr hp, length_nil] at hlength
    rw [layout.width.units_append y hp, recordLengthFrom_append 0 hadv]
    congr 1
    omega
  all_goals exact .inl ⟨_, recordLength_false.trans (hlen 0)⟩

/-- A record that something follows is made of whole units. -/
theorem EndsBefore.dvd_length (h : EndsBefore layout p x) (hx : x ≠ []) :
    layout.width.size ∣ p.length := by
  have hpos := length_pos_iff.mpr hx
  obtain h | ⟨-, -, -, h⟩ := recordLength_eq_some.mp h
  swap
  · rw [length_append] at h
    omega
  rcases recordLengthFrom_cases layout .fieldStart (layout.width.units (p ++ x)) with
    ⟨last, -, hnone⟩ | ⟨body, u, rest, last, -, -, ⟨-, hlen⟩ | ⟨-, hlen⟩⟩
  · rw [hnone 0] at h
    cases h
  all_goals
    rw [hlen 0, Nat.zero_add] at h
    exact ⟨_, (Option.some.inj h).symm⟩

/-- What is a record in front of something is a record at the end of the
source. -/
theorem EndsBefore.nil (h : EndsBefore layout p x) : EndsBefore layout p [] := by
  unfold EndsBefore
  rw [append_nil]
  cases hsettled : recordLength p layout false with
  | none => exact recordLength_true_of_unsettled hsettled h.ne_nil
  | some n =>
    have hn := recordLength_append hsettled [] true
    rw [append_nil] at hn
    rw [hn, ← recordLength_append hsettled x true]
    exact h

/-- Within a record the scanner finds no earlier end, whatever follows. -/
theorem EndsBefore.length_le (h : EndsBefore layout p x) (hp : layout.width.size ∣ p.length)
    {n : ℕ} (hn : recordLength (p ++ y) layout true = some n) : p.length ≤ n := by
  rcases recordLengthFrom_units hp with ⟨k, hk⟩ | ⟨last, -, hscan⟩
  · have hx := recordLength_append hk x true
    rw [recordLength_append hk y true] at hn
    rw [h] at hx
    cases hx
    exact (Option.some.inj hn).le
  · obtain hn | ⟨-, -, -, rfl⟩ := recordLength_eq_some.mp hn
    · exact recordLengthFrom_ge (hscan y ▸ hn)
    · rw [length_append]
      omega

/-- The end of a record is settled once the next record has been seen. -/
theorem EndsBefore.settled (h : EndsBefore layout p (q ++ x)) (hq : EndsBefore layout q x) :
    recordLength (p ++ q) layout false = some p.length := by
  have hpos := length_pos_iff.mpr hq.ne_nil
  have hp := h.dvd_length fun hnil => hq.ne_nil (append_eq_nil_iff.mp hnil).1
  rcases recordLengthFrom_units hp with ⟨k, hk⟩ | ⟨last, -, hscan⟩
  · have hx := recordLength_append hk (q ++ x) true
    rw [h] at hx
    cases hx
    exact recordLength_append hk q false
  · -- the unit that ends `p` is the first unit of `q`
    obtain ⟨vs, hvs⟩ := layout.width.units_prefix q x
    have h := (recordLength_eq_some.mp h).resolve_right fun hall => by
      have hlength := hall.2.2.2
      rw [length_append, length_append] at hlength
      omega
    rw [hscan (q ++ x), ← hvs] at h
    rw [recordLength_false, hscan q]
    cases hunits : layout.width.units q with
    | nil =>
      have hshort : q.length < layout.width.size := by
        have hlength := layout.width.length_eq q
        have hmod := Nat.mod_lt q.length layout.width.size_pos
        rw [hunits, layout.width.half_length, length_nil] at hlength
        omega
      have hx : x = [] := by
        by_contra hne
        obtain ⟨c, hc⟩ := hq.dvd_length hne
        have : 0 < c := Nat.pos_of_ne_zero fun hzero => by rw [hzero] at hc; omega
        have := Nat.le_mul_of_pos_right layout.width.size this
        omega
      rw [hx, append_nil, hunits] at hvs
      rw [hunits, (append_eq_nil_iff.mp hvs).2] at h
      cases h
    | cons u us =>
      have hsize := layout.width.size_pos
      rw [hunits, cons_append] at h
      by_cases hcont : (step layout last u).2.Continues
      · rw [recordLengthFrom_cons _ hcont] at h
        have := recordLengthFrom_ge h
        omega
      · simp only [recordLengthFrom] at h ⊢
        rcases hstep : step layout last u with ⟨next, kind⟩
        cases kind <;> simp_all [Step.Continues]

/-! ## Replacing what follows a run of records -/

/-- The records of `x`, with the records `before` in front of them. -/
def Leads (layout : Layout) (before : List Bytes) (x : Bytes) : Prop :=
  rawRecords layout (before.flatten ++ x) = before ++ rawRecords layout x

theorem Leads.cons (hp : EndsBefore layout p (before.flatten ++ x)) (h : Leads layout before x) :
    Leads layout (p :: before) x := by
  rw [Leads, flatten_cons, append_assoc, hp.rawRecords, h, cons_append]

theorem Leads.of_cons (h : Leads layout (p :: before) x) :
    EndsBefore layout p (before.flatten ++ x) ∧ Leads layout before x := by
  have h' : rawRecords layout ((p :: before).flatten ++ x) =
      p :: (before ++ rawRecords layout x) := h
  obtain ⟨-, hends, hrest⟩ := endsBefore_of_rawRecords h'
  rw [flatten_append, rawRecords_flatten] at hends hrest
  exact ⟨hends, hrest⟩

/-- A record that another one follows ends there whatever follows them both. -/
theorem Leads.endsBefore (h : Leads layout (p :: q :: before) x) (y : Bytes) :
    EndsBefore layout p ((q :: before).flatten ++ y) := by
  obtain ⟨hp, hrest⟩ := h.of_cons
  rw [flatten_cons, append_assoc] at hp
  rw [EndsBefore, flatten_cons, append_assoc, ← append_assoc]
  exact recordLength_append (hp.settled hrest.of_cons.1) _ true

/-- What follows a run of records can be replaced by anything in front of
which the last of them still ends. -/
theorem Leads.replace (h : Leads layout before x)
    (hlast : ∀ p ∈ before.getLast?, EndsBefore layout p y) : Leads layout before y := by
  induction before with
  | nil => rfl
  | cons p before ih =>
    cases before with
    | nil => exact .cons (hlast p rfl) rfl
    | cons q before =>
      exact .cons (h.endsBefore y)
        (ih h.of_cons.2 fun p hp => hlast p (by rwa [getLast?_cons_cons]))

/-- Records that something follows are made of whole units. -/
theorem Leads.dvd_length (h : Leads layout before x) (hx : x ≠ []) :
    layout.width.size ∣ before.flatten.length := by
  induction before with
  | nil => exact Nat.dvd_zero _
  | cons p before ih =>
    obtain ⟨hp, hrest⟩ := h.of_cons
    rw [flatten_cons, length_append]
    exact Nat.dvd_add (hp.dvd_length fun hnil => hx (append_eq_nil_iff.mp hnil).2) (ih hrest)

/-- If after the change the scan still has a boundary at the end of the run,
the last record of the run ends in front of what follows it now. -/
theorem Leads.endsBefore_of_boundary {before' : List Bytes} (h : Leads layout before x)
    (h' : Leads layout before' y) (hflatten : before'.flatten = before.flatten) :
    ∀ p ∈ before.getLast?, EndsBefore layout p y := by
  induction before generalizing before' with
  | nil => simp
  | cons p before ih =>
    obtain ⟨hp, hrest⟩ := h.of_cons
    cases before' with
    | nil =>
      have := hp.ne_nil
      simp_all
    | cons p' before' =>
      obtain ⟨hp', hrest'⟩ := h'.of_cons
      have hbytes : (p :: before).flatten ++ y = p' ++ (before'.flatten ++ y) := by
        rw [← hflatten, flatten_cons, append_assoc]
      cases before with
      | nil =>
        intro a ha
        obtain rfl : p = a := Option.some.inj ha
        rw [flatten_singleton] at hflatten hbytes
        by_cases hy : y = []
        · exact hy ▸ hp.nil
        · -- the first record found is no shorter than `p`, and it lies within `p`
          have hle := hp.length_le (hflatten ▸ h'.dvd_length hy) (n := p'.length)
            (by rw [hbytes]; exact hp')
          have hlen := congrArg List.length hflatten
          rw [flatten_cons, length_append] at hlen
          rw [EndsBefore, hbytes, hp']
          congr 1
          omega
      | cons q before =>
        have hnext := h.endsBefore y
        rw [EndsBefore, ← append_assoc, ← flatten_cons, hbytes, hp'] at hnext
        obtain ⟨rfl, htail⟩ := append_inj hflatten (Option.some.inj hnext)
        exact ih hrest hrest' htail

end Dbflux.Delimited

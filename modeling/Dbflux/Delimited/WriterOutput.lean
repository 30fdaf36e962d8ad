import Dbflux.Delimited.ReaderPages
import Dbflux.Delimited.Shape

/-!
# What the writer writes

The bytes a successful save adds to the sink, as a function of the source's
content and the plan. The source is read in windows and may fail; a save that
succeeds has read the content as it is.

The two ways of writing, by range and by record, come to the same thing: one
record of the source after another, each written as a list of output records
(`outsOf`, `emit`).

Results:
* `copy_ensures`: a copied range is written as it is, with a pair of quotes in
  front where its line feed would join a carriage return.
* `writeByRange_ensures`, `writeByRecord_ensures`: the bytes written are those
  of `emit`.
-/

namespace Dbflux.Delimited

open Lib List
open Function (comp_def)

/-! ## The bytes written so far -/

/-- The last code unit of the bytes is a carriage return. -/
def endsWithReturn (layout : Layout) (bytes : Bytes) : Bool :=
  decide (bytes.length % layout.width.size = 0) &&
    decide (layout.width.unitAt (bytes.drop (bytes.length - layout.width.size)) 0 =
      some carriageReturn)

/-- The bytes of a range of the content. -/
def piece (content : Bytes) (start finish : ℕ) : Bytes := (content.drop start).take (finish - start)

variable {start : ℕ} (content : Bytes)

theorem piece_eq_nil {finish : ℕ} (h : finish ≤ start) :
    piece content start finish = [] := by
  rw [piece, Nat.sub_eq_zero_of_le h, take_zero]

theorem piece_append {middle finish : ℕ} (h : start ≤ middle)
    (h' : middle ≤ finish) :
    piece content start middle ++ piece content middle finish = piece content start finish := by
  have hdrop : content.drop middle = (content.drop start).drop (middle - start) := by
    rw [drop_drop, Nat.add_sub_cancel' h]
  have hlength : finish - start = (middle - start) + (finish - middle) := by omega
  unfold piece
  rw [hdrop, hlength, take_add]

theorem drop_piece (n finish : ℕ) :
    (piece content start finish).drop n = piece content (start + n) finish := by
  rw [piece, piece, drop_take, drop_drop, Nat.sub_sub]

/-- What a copied range becomes after the bytes `written`: a line feed that
would join the carriage return in front of it gets a pair of quotes, and
there is no way to copy it without a quote character. -/
def copied (layout : Layout) (written bytes : Bytes) : Option Bytes :=
  if endsWithReturn layout written = true ∧ (layout.width.units bytes).head? = some lineFeed then
    layout.quote.map fun quote =>
      layout.width.unitBytes quote ++ layout.width.unitBytes quote ++ bytes
  else some bytes

theorem copied_of_not_return {layout : Layout} {written : Bytes}
    (h : endsWithReturn layout written = false) (bytes : Bytes) :
    copied layout written bytes = some bytes := by
  rw [copied, if_neg]
  rintro ⟨hreturn, -⟩
  rw [h] at hreturn
  cases hreturn

theorem endsWithReturn_nil (layout : Layout) : endsWithReturn layout [] = false := by
  unfold endsWithReturn
  rw [Bool.and_eq_false_iff]
  right
  cases layout.width <;> rfl

theorem copied_nil (layout : Layout) (written : Bytes) : copied layout written [] = some [] := by
  have hunits : layout.width.units [] = [] := by cases layout.width <;> rfl
  rw [copied, hunits, if_neg (by simp)]

namespace Output

/-- The count and the last bytes agree with what the sink has taken. -/
structure Tracks (layout : Layout) (out : Output) : Prop where
  written : out.written = out.sink.bytes.length
  last : out.lastBytes = out.sink.bytes.drop (out.sink.bytes.length - layout.width.size)

/-- `t` is `out` after `added` was written. -/
structure Wrote (layout : Layout) (out : Output) (added : Bytes) (t : Output) : Prop where
  bytes : t.sink.bytes = out.sink.bytes ++ added
  content : t.source.content = out.source.content
  tracks : Tracks layout t

section Calls

variable {layout : Layout} {out t u : Output} {added added' : Bytes}

variable (h : Tracks layout out)
include h

theorem Tracks.endsWithCarriageReturn :
    Output.endsWithCarriageReturn layout out = endsWithReturn layout out.sink.bytes := by
  unfold Output.endsWithCarriageReturn endsWithReturn
  rw [h.written, h.last]

theorem Tracks.refl : Wrote layout out [] out :=
  ⟨(append_nil _).symm, rfl, h⟩

omit h in
theorem Wrote.trans (h : Wrote layout out added t) (h' : Wrote layout t added' u) :
    Wrote layout out (added ++ added') u :=
  ⟨by rw [h'.bytes, h.bytes, append_assoc], h'.content.trans h.content, h'.tracks⟩

theorem write_ensures (bytes : Bytes) :
    Leaves (write layout bytes) out (fun _ t => Wrote layout out bytes t) := by
  unfold Leaves Ensures write
  split_ifs
  · trivial
  · refine ⟨rfl, rfl, ?_, ?_⟩
    · show out.written + bytes.length = (out.sink.bytes ++ bytes).length
      rw [h.written, length_append]
    · -- the last unit of what was kept is the last unit of everything
      show (out.lastBytes ++ bytes).drop ((out.lastBytes ++ bytes).length - layout.width.size) =
        (out.sink.bytes ++ bytes).drop ((out.sink.bytes ++ bytes).length - layout.width.size)
      rw [h.last]
      set s := out.sink.bytes
      set n := s.length - layout.width.size with hn
      have hle : n ≤ s.length := Nat.sub_le _ _
      rw [← drop_append_of_le_length hle, drop_drop, length_drop]
      congr 1
      rw [length_append]
      omega

theorem onSource_ensures {α : Type} {m : SourceM α} {Q : α → Prop}
    (hm : Leaves m out.source (fun a t => t.content = out.source.content ∧ Q a)) :
    Leaves (onSource m) out (fun a t => Wrote layout out [] t ∧ Q a) := by
  unfold Leaves Ensures at hm ⊢
  unfold onSource
  cases hrun : m out.source with
  | ok a source =>
    rw [hrun] at hm
    exact ⟨⟨(append_nil _).symm, hm.1, ⟨h.written, h.last⟩⟩, hm.2⟩
  | error e source => trivial

/-- A read that succeeds returns the bytes of the range, which is within the
content. -/
theorem read_ensures (start finish : ℕ) : Leaves (read start finish) out
      (fun bytes t => Wrote layout out [] t ∧ bytes = piece out.source.content start finish ∧
        (start < finish → finish ≤ out.source.content.length)) := by
  refine (onSource_ensures h ((Source.readRange_ensures out.source start finish).mono
    (fun _ _ hb => hb) fun _ _ => trivial)).next ?_
  rintro bytes t ⟨hwrote, hprefix⟩
  by_cases hlength : bytes.length = finish - start
  · rw [if_neg (not_not.mpr hlength)]
    refine Ensures.pure ⟨hwrote, ?_⟩
    have hle := hprefix.length_le
    simp only [Source.slice, length_take, length_drop] at hle
    by_cases hlt : start < finish
    · have hfinish : finish ≤ out.source.content.length := by omega
      refine ⟨?_, fun _ => hfinish⟩
      rw [Source.slice_eq _ hlt.le hfinish] at hprefix
      exact hprefix.eq_of_length (by rw [length_take, length_drop]; omega)
    · refine ⟨?_, fun h => absurd h hlt⟩
      have hnil : bytes = [] := length_eq_zero_iff.mp (by omega)
      rw [hnil, piece_eq_nil _ (Nat.le_of_not_lt hlt)]
  · rw [if_pos hlength]
    exact Ensures.stop

omit h

theorem copyWindows_ensures {windowSize : ℕ} (hwindow : 0 < windowSize) (finish : ℕ) :
    ∀ (fuel position : ℕ) (out : Output), finish - position ≤ fuel → Tracks layout out →
    Leaves (copyWindows layout windowSize fuel position finish) out
      (fun _ t => Wrote layout out (piece out.source.content position finish) t) := by
  intro fuel
  induction fuel with intro position out hfuel h
  | zero =>
    rw [piece_eq_nil _ (by omega)]
    exact .pure h.refl
  | succ fuel ih =>
    unfold copyWindows
    by_cases hlt : position < finish
    · rw [if_pos hlt]
      set stop := min (position + windowSize) finish with hstop
      have hle : position ≤ stop := by omega
      refine (read_ensures h position stop).next ?_
      rintro bytes t ⟨hread, rfl, -⟩
      refine (write_ensures hread.tracks _).next ?_
      intro _ u hwrite
      refine (ih stop u (by omega) hwrite.tracks).imp ?_
      intro _ v hrest
      have hall := (hread.trans hwrite).trans hrest
      rw [hwrite.content, hread.content, nil_append] at hall
      rwa [← piece_append _ hle (Nat.min_le_right _ _)]
    · rw [if_neg hlt, piece_eq_nil _ (Nat.le_of_not_lt hlt)]
      exact .pure h.refl

/-- The first unit of the bytes is read from as many bytes as a unit has. -/
theorem unitAt_take (bytes : Bytes) :
    layout.width.unitAt (bytes.take layout.width.size) 0 = (layout.width.units bytes).head? := by
  have hunit := layout.width.unitAt_eq (bytes.take layout.width.size) 0
  rw [Nat.mul_zero] at hunit
  rw [hunit, head?_eq_getElem?]
  by_cases hlength : bytes.length < layout.width.size
  · rw [take_of_length_le hlength.le]
  · have hhalf := Nat.mod_lt bytes.length layout.width.size_pos
    rw [← layout.width.half_length] at hhalf
    have hone : 1 ≤ (layout.width.units bytes).length := by
      by_contra hzero
      have htotal := layout.width.length_eq bytes
      rw [Nat.lt_one_iff.mp (Nat.lt_of_not_le hzero)] at htotal
      omega
    have htake := layout.width.units_take hone
    rw [Nat.mul_one] at htake
    rw [htake, getElem?_take_of_lt Nat.one_pos]

theorem copySeam_ensures (h : Tracks layout out) (range : ByteRange) :
    Leaves (copySeam layout range) out (fun _ t => ∃ seam, Wrote layout out seam t ∧
        copied layout out.sink.bytes (piece out.source.content range.start range.finish) =
          some (seam ++ piece out.source.content range.start range.finish)) := by
  refine (Ensures.get ?_).bind
  by_cases hcond : range.start < range.finish ∧ endsWithCarriageReturn layout out = true
  · rw [if_pos hcond]
    have hreturn := hcond.2
    rw [h.endsWithCarriageReturn] at hreturn
    refine (read_ensures h _ _).next ?_
    rintro bytes t ⟨hread, rfl, -⟩
    have hpiece : piece out.source.content range.start
        (min (range.start + layout.width.size) range.finish) =
          (piece out.source.content range.start range.finish).take layout.width.size := by
      rw [piece, piece, take_take]
      congr 1
      omega
    rw [hpiece, unitAt_take]
    by_cases hfeed : (layout.width.units
        (piece out.source.content range.start range.finish)).head? = some lineFeed
    · rw [if_pos hfeed]
      cases hquote : layout.quote with
      | none => exact Ensures.throw trivial
      | some quote =>
        refine (write_ensures hread.tracks _).imp ?_
        intro _ u hwrite
        refine ⟨_, hread.trans hwrite, ?_⟩
        rw [copied, if_pos ⟨hreturn, hfeed⟩, hquote]
        rfl
    · rw [if_neg hfeed]
      refine Ensures.pure ⟨[], hread, ?_⟩
      rw [copied, if_neg fun hboth => hfeed hboth.2, nil_append]
  · rw [if_neg hcond]
    refine Ensures.pure ⟨[], h.refl, ?_⟩
    by_cases hlt : range.start < range.finish
    · have hreturn : ¬ endsWithReturn layout out.sink.bytes = true := by
        rw [← h.endsWithCarriageReturn]
        exact fun hends => hcond ⟨hlt, hends⟩
      rw [copied, if_neg fun hboth => hreturn hboth.1, nil_append]
    · rw [piece_eq_nil _ (Nat.le_of_not_lt hlt), copied_nil, nil_append]

/-- **A copied range.** -/
theorem copy_ensures {windowSize : ℕ} (hwindow : 0 < windowSize) (h : Tracks layout out)
    (range : ByteRange) :
    Leaves (copy layout windowSize range) out (fun _ t => ∃ added, Wrote layout out added t ∧
        copied layout out.sink.bytes (piece out.source.content range.start range.finish) =
          some added) := by
  refine (copySeam_ensures h range).next ?_
  rintro _ t ⟨seam, hseam, hcopied⟩
  refine (copyWindows_ensures hwindow range.finish _ range.start t le_rfl hseam.tracks).imp ?_
  intro _ u hrest
  rw [hseam.content] at hrest
  exact ⟨_, hseam.trans hrest, hcopied⟩

theorem writeInserted_ensures (terminator fallback : Bytes) :
    ∀ (inserted : List Bytes) (out : Output), Tracks layout out →
    Leaves (writeInserted layout terminator fallback inserted) out (fun _ t => Wrote layout out
        (inserted.map (· ++ if terminator.isEmpty then fallback else terminator)).flatten t) := by
  intro inserted
  induction inserted with
  | nil => exact fun out h => .pure h.refl
  | cons record rest ih =>
    intro out h
    refine (write_ensures h record).next ?_
    intro _ t hrecord
    refine (write_ensures hrecord.tracks _).next ?_
    intro _ u hterm
    refine (ih u hterm.tracks).imp ?_
    intro _ v hrest
    exact (hrecord.trans hterm).trans hrest

end Calls

end Output

/-! ## One record after another -/

/-- What the output of a source record depends on besides its bytes. -/
structure Emission where
  layout : Layout
  plan : ℕ → Option RecordPlan
  appended : Option AppendedFields
  headerStart : Option ℕ
  fallback : Bytes

namespace Emission

variable (e : Emission)

/-- The terminator a record gets that is inserted next to `raw`. -/
def insertedTerminator (raw : Bytes) : Bytes :=
  if (terminatorOf e.layout raw).isEmpty then e.fallback else terminatorOf e.layout raw

/-- The records inserted before the record at `start`. -/
def insertedAt (start : ℕ) (raw : Bytes) : List Bytes :=
  (((e.plan start).map RecordPlan.insertedBefore).getD []).map (· ++ e.insertedTerminator raw)

def actionAt (start : ℕ) : Action := ((e.plan start).map RecordPlan.action).getD .keep

/-- The fields a kept record is extended by. -/
def fieldsAt (appended : AppendedFields) (start : ℕ) : Bytes :=
  ((e.plan start).bind RecordPlan.appended).getD
    (if e.headerStart = some start then appended.header else appended.default)

/-- What a kept record becomes. -/
def kept (written : Bytes) (start : ℕ) (raw : Bytes) : Option Bytes :=
  match e.appended with
  | none => copied e.layout written raw
  | some appended =>
    if endsInsideQuotes raw e.layout then none
    else some (contentOf e.layout raw ++ e.fieldsAt appended start ++ terminatorOf e.layout raw)

/-- The output records a source record becomes, after the bytes `written`. -/
def outsOf (written : Bytes) (start : ℕ) (raw : Bytes) : Option (List Bytes) :=
  match e.actionAt start with
  | .keep => (e.kept (written ++ (e.insertedAt start raw).flatten) start raw).map fun own =>
      e.insertedAt start raw ++ [own]
  | .replace rendered => some (e.insertedAt start raw ++ [rendered ++ terminatorOf e.layout raw])
  | .delete => some (e.insertedAt start raw)

/-- The output records of the source records from `start` on. -/
def emit : List Bytes → ℕ → Bytes → Option (List Bytes)
  | [], _, _ => some []
  | raw :: rest, start, written =>
    (e.outsOf written start raw).bind fun outs =>
      (emit rest (start + raw.length) (written ++ outs.flatten)).map (outs ++ ·)

end Emission

open Emission (insertedAt actionAt emit outsOf fieldsAt)

/-- `raw` is the record at `position` among the records from `start` on. -/
def IsRecordAt (start : ℕ) (records : List Bytes) (position : ℕ) (raw : Bytes) : Prop :=
  ∃ before after, records = before ++ raw :: after ∧ position = start + before.flatten.length

variable {position : ℕ} {p raw : Bytes} {records : List Bytes}

theorem isRecordAt_cons : IsRecordAt start (p :: records) position raw ↔
      (position = start ∧ raw = p) ∨ IsRecordAt (start + p.length) records position raw := by
  constructor
  · rintro ⟨before, after, hrecords, hposition⟩
    cases before with obtain ⟨rfl, rfl⟩ := List.cons.inj hrecords
    | nil =>
      exact .inl ⟨hposition, rfl⟩
    | cons head before =>
      refine .inr ⟨before, after, rfl, ?_⟩
      rw [hposition, flatten_cons, length_append, Nat.add_assoc]
  · rintro (⟨rfl, rfl⟩ | ⟨before, after, rfl, rfl⟩)
    · exact ⟨[], records, rfl, rfl⟩
    · refine ⟨p :: before, after, rfl, ?_⟩
      rw [flatten_cons, length_append, Nat.add_assoc]

theorem IsRecordAt.le (h : IsRecordAt start records position raw) : start ≤ position := by
  obtain ⟨before, after, -, rfl⟩ := h
  exact Nat.le_add_right _ _

/-- The record at the first place is the first one. -/
theorem IsRecordAt.head (h : IsRecordAt start (p :: records) start raw) (hne : p ≠ []) :
    raw = p := by
  rcases isRecordAt_cons.mp h with ⟨-, heq⟩ | hafter
  · exact heq
  · have := hafter.le
    have := length_pos_iff.mpr hne
    omega

theorem not_isRecordAt_nil : ¬ IsRecordAt start [] position raw := by
  rintro ⟨before, after, hrecords, -⟩
  exact absurd hrecords.symm (by simp)

/-! ## Seams between source records -/

section Seams

variable {layout : Layout} {p x y written : Bytes}

/-- The last unit of the output is the last unit of what was written last. -/
theorem unitAt_last (hne : p ≠ []) (hwhole : layout.width.size ∣ p.length) :
    layout.width.unitAt ((written ++ p).drop ((written ++ p).length - layout.width.size)) 0 =
      (layout.width.units p).getLast? := by
  have hlength := length_of_whole hwhole
  have hpos := length_pos_iff.mpr hne
  have hsize : layout.width.size ≤ p.length := Nat.le_of_dvd hpos hwhole
  have hlast : p.length - layout.width.size =
      layout.width.size * ((layout.width.units p).length - 1) := by
    rw [Nat.mul_sub, Nat.mul_one, ← hlength]
  have hdrop : (written ++ p).drop ((written ++ p).length - layout.width.size) =
      p.drop (layout.width.size * ((layout.width.units p).length - 1)) := by
    rw [← hlast, length_append, Nat.add_sub_assoc hsize, drop_append,
      drop_of_length_le (Nat.le_add_right _ _), nil_append, Nat.add_sub_cancel_left]
  have hunit := layout.width.unitAt_eq
    (p.drop (layout.width.size * ((layout.width.units p).length - 1))) 0
  rw [Nat.mul_zero, layout.width.units_drop (Nat.sub_le _ _), getElem?_drop, Nat.add_zero] at hunit
  rw [hdrop, hunit, getLast?_eq_getElem?]

theorem getLast_of_endsWithReturn (hne : p ≠ []) (hwhole : layout.width.size ∣ p.length)
    (h : endsWithReturn layout (written ++ p) = true) :
    (layout.width.units p).getLast? = some carriageReturn := by
  unfold endsWithReturn at h
  rw [unitAt_last hne hwhole, Bool.and_eq_true, decide_eq_true_eq, decide_eq_true_eq] at h
  exact h.2

/-- Copying a record and what follows it together, or one after the other. -/
theorem copied_append (h : EndsBefore layout p (x ++ y)) : copied layout written (p ++ x) =
      (copied layout written p).bind fun own =>
        (copied layout (written ++ own) x).map (own ++ ·) := by
  by_cases hx : x = []
  · subst hx
    cases hown : copied layout written p <;> simp [hown, copied_nil]
  · have hwhole := h.dvd_length fun hnil => hx (append_eq_nil_iff.mp hnil).1
    have hunits : layout.width.units p ≠ [] := by
      intro hnil
      have hlength := length_of_whole hwhole
      rw [hnil, length_nil, Nat.mul_zero] at hlength
      exact h.ne_nil (length_eq_zero_iff.mp hlength)
    have hhead : (layout.width.units (p ++ x)).head? = (layout.width.units p).head? := by
      rw [layout.width.units_append _ hwhole, head?_append_of_ne_nil _ hunits]
    -- the line feed that would need quotes is the first unit of `p`, never of `x`
    have hnext : ∀ own, copied layout written p = some own →
        copied layout (written ++ own) x = some x := by
      intro own hown
      rw [copied, if_neg]
      rintro ⟨hreturn, hfeed⟩
      have hlast : (layout.width.units p).getLast? = some carriageReturn := by
        unfold copied at hown
        split_ifs at hown with hseam
        · obtain ⟨quote, -, rfl⟩ := Option.map_eq_some_iff.mp hown
          rw [← append_assoc] at hreturn
          exact getLast_of_endsWithReturn h.ne_nil hwhole hreturn
        · cases hown
          exact getLast_of_endsWithReturn h.ne_nil hwhole hreturn
      refine h.next_ne_lineFeed hlast ?_
      obtain ⟨rest, hrest⟩ := head?_eq_some_iff.mp hfeed
      obtain ⟨more, hmore⟩ := layout.width.units_prefix x y
      rw [← hmore, hrest]
      rfl
    have hwith : copied layout written (p ++ x) = (copied layout written p).map (· ++ x) := by
      unfold copied
      rw [hhead]
      split <;> simp [comp_def]
    rw [hwith]
    cases hown : copied layout written p with
    | none => rfl
    | some own =>
      rw [Option.bind_some, hnext own hown]
      rfl

end Seams

/-! ## Writing by range -/

/-- What is written for an edited record itself. -/
def RecordPlan.ownBytes (record : RecordPlan) : Bytes :=
  match record.action with
  | .replace rendered => rendered ++ record.terminator
  | .keep | .delete => []

/-- Where copying goes on after an edited record. -/
def RecordPlan.resumeAt (record : RecordPlan) (start : ℕ) : ℕ :=
  match record.action with
  | .keep => start
  | .replace _ | .delete => record.finish

/-- The records inserted before an edited record. -/
def RecordPlan.insertedBytes (record : RecordPlan) (fallback : Bytes) : Bytes :=
  (record.insertedBefore.map
    (· ++ if record.terminator.isEmpty then fallback else record.terminator)).flatten

/-- The bytes written for the edited records and the ranges between them. -/
def rangesOut (layout : Layout) (content fallback : Bytes) :
    List (ℕ × RecordPlan) → ℕ → Bytes → Option Bytes
  | [], position, written => copied layout written (piece content position content.length)
  | (start, record) :: rest, position, written =>
    (copied layout written (piece content position start)).bind fun own =>
      (rangesOut layout content fallback rest (record.resumeAt start)
        (written ++ (own ++ record.insertedBytes fallback ++ record.ownBytes))).map
        (own ++ record.insertedBytes fallback ++ record.ownBytes ++ ·)

namespace Output

variable {layout : Layout} {windowSize : ℕ}

/-- Copying on from `reached` completes the output of the entries. -/
def RangesTo (layout : Layout) (fallback : Bytes) (entries : List (ℕ × RecordPlan)) (position : ℕ)
    (out : Output) (reached : ℕ) (t : Output) : Prop :=
  ∃ added, Wrote layout out added t ∧ ∀ tail, copied layout (out.sink.bytes ++ added)
      (piece out.source.content reached out.source.content.length) = some tail →
    rangesOut layout out.source.content fallback entries position out.sink.bytes =
      some (added ++ tail)

theorem writeRanges_ensures (hwindow : 0 < windowSize) (fallback : Bytes) :
    ∀ (entries : List (ℕ × RecordPlan)) (position : ℕ) (out : Output), Tracks layout out →
    Leaves (writeRanges layout windowSize fallback entries position) out
      (RangesTo layout fallback entries position out) := by
  intro entries
  induction entries with
  | nil =>
    intro position out h
    refine .pure ⟨[], h.refl, fun tail htail => ?_⟩
    rwa [append_nil] at htail
  | cons entry rest ih =>
    obtain ⟨start, record⟩ := entry
    intro position out h
    refine (copy_ensures hwindow h ⟨position, start⟩).next ?_
    rintro _ t ⟨own, hcopy, hown⟩
    refine (writeInserted_ensures record.terminator fallback record.insertedBefore t
      hcopy.tracks).next ?_
    intro _ u hinserted
    -- whatever the action writes, the rest of the entries follows it
    have hrest : ∀ (v : Output), Wrote layout u record.ownBytes v →
        Leaves (writeRanges layout windowSize fallback rest (record.resumeAt start)) v
          (RangesTo layout fallback ((start, record) :: rest) position out) := by
      intro v hv
      have hdone := (hcopy.trans hinserted).trans hv
      refine (ih (record.resumeAt start) v hdone.tracks).imp ?_
      rintro reached w ⟨added, hadded, hranges⟩
      refine ⟨_, hdone.trans hadded, fun tail htail => ?_⟩
      rw [hdone.bytes, hdone.content] at hranges
      rw [← append_assoc] at htail
      rw [rangesOut, hown, Option.bind_some]
      have htail' := hranges tail htail
      simp only [RecordPlan.insertedBytes] at htail' ⊢
      rw [htail', Option.map_some, ← append_assoc]
    simp only [RecordPlan.ownBytes, RecordPlan.resumeAt] at hrest
    cases haction : record.action with rw [haction] at hrest
    | keep =>
      exact hrest u hinserted.tracks.refl
    | replace rendered =>
      refine (write_ensures hinserted.tracks rendered).next ?_
      intro _ v hrendered
      refine (write_ensures hrendered.tracks record.terminator).next ?_
      intro _ w hterm
      exact hrest w (hrendered.trans hterm)
    | delete =>
      exact hrest u hinserted.tracks.refl

end Output

/-! ### The same output, record by record -/

section ByRecord

variable {layout : Layout} {content fallback : Bytes}

theorem piece_of_rawRecords {rest : List Bytes}
    (h : rawRecords layout (content.drop start) = p :: rest) :
    piece content start (start + p.length) = p ∧ content.drop (start + p.length) = rest.flatten ∧
      EndsBefore layout p rest.flatten ∧
      rawRecords layout (content.drop (start + p.length)) = rest := by
  obtain ⟨hbytes, hends, hrest⟩ := endsBefore_of_rawRecords h
  have hdrop : content.drop (start + p.length) = rest.flatten := by
    rw [← drop_drop, hbytes, drop_left]
  refine ⟨?_, hdrop, hends, by rw [hdrop, hrest]⟩
  rw [piece, Nat.add_sub_cancel_left, hbytes, take_left]

/-- The output of the entries is split where the copy of every range from
`position` on is. -/
theorem rangesOut_split {middle : ℕ} {written : Bytes} (first : Option Bytes)
    (hsplit : ∀ finish, middle ≤ finish → copied layout written (piece content position finish) =
      first.bind fun own =>
        (copied layout (written ++ own) (piece content middle finish)).map (own ++ ·))
    (hle : middle ≤ content.length) {entries : List (ℕ × RecordPlan)}
    (hkeys : ∀ entry ∈ entries, middle ≤ entry.1) :
    rangesOut layout content fallback entries position written = first.bind fun own =>
      (rangesOut layout content fallback entries middle (written ++ own)).map (own ++ ·) := by
  cases entries with
  | nil => exact hsplit content.length hle
  | cons entry entries =>
    rw [rangesOut, hsplit entry.1 (hkeys _ mem_cons_self)]
    cases first with
    | none => rfl
    | some own =>
      simp only [Option.bind_some, rangesOut]
      cases copied layout (written ++ own) (piece content middle entry.1) with
      | none => rfl
      | some next => simp [comp_def]

/-- Copying on from a record no later entry starts in. -/
theorem rangesOut_record {rest : List Bytes}
    (h : rawRecords layout (content.drop start) = p :: rest) (entries : List (ℕ × RecordPlan))
    (hkeys : ∀ entry ∈ entries, start + p.length ≤ entry.1) (written : Bytes) :
    rangesOut layout content fallback entries start written =
      (copied layout written p).bind fun own =>
        (rangesOut layout content fallback entries (start + p.length) (written ++ own)).map
          (own ++ ·) := by
  obtain ⟨hpiece, hdrop, hends, -⟩ := piece_of_rawRecords h
  have hle : start + p.length ≤ content.length := by
    have hbytes := (endsBefore_of_rawRecords h).1
    have hpos := length_pos_iff.mpr hends.ne_nil
    have hlength := congrArg List.length hbytes
    rw [length_drop, length_append] at hlength
    omega
  refine rangesOut_split _ (fun finish hfinish => ?_) hle hkeys
  -- a range that starts with `p` is copied as `p` and then the rest of it
  have hrest : piece content (start + p.length) finish ++
      rest.flatten.drop (finish - (start + p.length)) = rest.flatten := by
    rw [piece, hdrop, take_append_drop]
  rw [← piece_append content (Nat.le_add_right start p.length) hfinish, hpiece]
  exact copied_append (by rwa [hrest])

/-- The entries are plans of records from `start` on, and the emission follows
them there. -/
structure Emission.Follows (e : Emission) (start : ℕ) (records : List Bytes)
    (entries : List (ℕ × RecordPlan)) : Prop where
  sorted : entries.Pairwise fun a b => a.1 < b.1
  isRecord : ∀ k record, (k, record) ∈ entries → ∃ raw, IsRecordAt start records k raw ∧
    record.finish = k + raw.length ∧ record.terminator = terminatorOf e.layout raw
  plan : ∀ k, start ≤ k → ∀ record, e.plan k = some record ↔ (k, record) ∈ entries

section Follows

variable {e : Emission} {start : ℕ} {p : Bytes} {rest : List Bytes}
  {entries : List (ℕ × RecordPlan)}

theorem Emission.Follows.le {records : List Bytes} (h : e.Follows start records entries) :
    ∀ entry ∈ entries, start ≤ entry.1 := by
  rintro ⟨k, record⟩ hmem
  obtain ⟨raw, hraw, -⟩ := h.isRecord k record hmem
  exact hraw.le

/-- The records after one whose plan has been dealt with. -/
theorem Emission.Follows.tail (h : e.Follows start (p :: rest) entries) (hp : p ≠ [])
    {later : List (ℕ × RecordPlan)} (hsub : later.Sublist entries)
    (hlater : ∀ k record, (k, record) ∈ later ↔ (k, record) ∈ entries ∧ k ≠ start) :
    e.Follows (start + p.length) rest later := by
  have hpos := length_pos_iff.mpr hp
  refine ⟨h.sorted.sublist hsub, fun k record hmem => ?_, fun k hk record => ?_⟩
  · obtain ⟨hentry, hk⟩ := (hlater k record).mp hmem
    obtain ⟨raw, hraw, hfinish⟩ := h.isRecord k record hentry
    rcases isRecordAt_cons.mp hraw with ⟨heq, -⟩ | hrest
    · exact absurd heq hk
    · exact ⟨raw, hrest, hfinish⟩
  · rw [h.plan k (by omega), hlater]
    exact ⟨fun hmem => ⟨hmem, by omega⟩, fun hmem => hmem.1⟩

/-- The plan of the first record is the first entry. -/
theorem Emission.Follows.head (h : e.Follows start (p :: rest) entries) (hp : p ≠ [])
    {record : RecordPlan} (hplan : e.plan start = some record) :
    ∃ later, entries = (start, record) :: later ∧ e.Follows (start + p.length) rest later ∧
      record.finish = start + p.length ∧ record.terminator = terminatorOf e.layout p := by
  have hmem := (h.plan start le_rfl record).mp hplan
  cases entries with
  | nil => cases hmem
  | cons entry later =>
    obtain ⟨hfirst, -⟩ := pairwise_cons.mp h.sorted
    have hentry : entry = (start, record) := by
      rcases mem_cons.mp hmem with heq | hlater
      · exact heq.symm
      · exact absurd (hfirst _ hlater) (Nat.not_lt.mpr (h.le entry mem_cons_self))
    subst hentry
    obtain ⟨raw, hraw, hrecord⟩ := h.isRecord start record mem_cons_self
    obtain rfl : raw = p := hraw.head hp
    refine ⟨later, rfl, h.tail hp (sublist_cons_self _ _) fun k r => ⟨fun hlater => ?_, ?_⟩, hrecord⟩
    · exact ⟨mem_cons_of_mem _ hlater, (Nat.ne_of_lt (hfirst _ hlater)).symm⟩
    · rintro ⟨hkr, hk⟩
      rcases mem_cons.mp hkr with heq | hlater
      · exact absurd (Prod.mk.inj heq).1 hk
      · exact hlater

end Follows

/-- **By range is record by record.** Without appended columns, copying the
ranges between edited records writes what `emit` says. -/
theorem rangesOut_eq_emit (e : Emission) (happended : e.appended = none) :
    ∀ (records : List Bytes) (start : ℕ) (written : Bytes) (entries : List (ℕ × RecordPlan)),
    rawRecords e.layout (content.drop start) = records → e.Follows start records entries →
    rangesOut e.layout content e.fallback entries start written =
      (e.emit records start written).map List.flatten := by
  intro records
  induction records with intro start written entries hraw h
  | nil =>
    have hentries : entries = [] := by
      rw [eq_nil_iff_forall_not_mem]
      rintro ⟨k, record⟩ hmem
      obtain ⟨raw, hrecord, -⟩ := h.isRecord k record hmem
      exact not_isRecordAt_nil hrecord
    have hnil : content.drop start = [] := by
      have hflatten := rawRecords_flatten e.layout (content.drop start)
      rwa [hraw, flatten_nil, eq_comm] at hflatten
    rw [hentries, rangesOut, piece, hnil, take_nil, copied_nil]
    rfl
  | cons p rest ih =>
    obtain ⟨-, -, hends, hrest⟩ := piece_of_rawRecords hraw
    -- a kept record is copied, and then the records after it are written
    have hkept : ∀ (w : Bytes) (later : List (ℕ × RecordPlan)),
        e.Follows (start + p.length) rest later →
        rangesOut e.layout content e.fallback later start w = (e.kept w start p).bind fun own =>
            ((e.emit rest (start + p.length) (w ++ own)).map .flatten).map (own ++ ·) := by
      intro w later hlater
      rw [rangesOut_record hraw later hlater.le, Emission.kept, happended]
      congr 1
      funext own
      rw [ih (start + p.length) (w ++ own) later hrest hlater]
    cases hplan : e.plan start with
    | none =>
      have hne : ∀ k record, (k, record) ∈ entries ↔ (k, record) ∈ entries ∧ k ≠ start := by
        refine fun k record => ⟨fun hmem => ⟨hmem, ?_⟩, fun hmem => hmem.1⟩
        rintro rfl
        rw [← h.plan k le_rfl, hplan] at hmem
        cases hmem
      have hfollows := h.tail hends.ne_nil (.refl _) hne
      have hinserted : e.insertedAt start p = [] := by simp [insertedAt, hplan]
      have haction : e.actionAt start = .keep := by simp [actionAt, hplan]
      rw [hkept written entries hfollows, emit, outsOf, haction, hinserted]
      cases hown : e.kept written start p with
      | none => simp [hown]
      | some own => simp [hown, Option.map_map, comp_def]
    | some record =>
      obtain ⟨later, rfl, hfollows, hfinish, hterm⟩ := h.head hends.ne_nil hplan
      have hinserted : record.insertedBytes e.fallback = (e.insertedAt start p).flatten := by
        simp [RecordPlan.insertedBytes, insertedAt, Emission.insertedTerminator, hplan, hterm]
      have hactionAt : e.actionAt start = record.action := by simp [actionAt, hplan]
      rw [rangesOut, piece_eq_nil _ le_rfl, copied_nil, Option.bind_some, nil_append, hinserted,
        emit, outsOf, hactionAt]
      cases haction : record.action with
      | keep =>
        simp only [RecordPlan.resumeAt, RecordPlan.ownBytes, haction, append_nil]
        rw [hkept _ later hfollows]
        cases hown : e.kept (written ++ (e.insertedAt start p).flatten) start p with
        | none => simp
        | some own => simp [Option.map_map, comp_def]
      | replace rendered =>
        simp only [RecordPlan.resumeAt, RecordPlan.ownBytes, haction, hfinish, hterm]
        rw [ih _ _ later hrest hfollows]
        simp [Option.map_map, comp_def]
      | delete =>
        simp only [RecordPlan.resumeAt, RecordPlan.ownBytes, haction, hfinish, append_nil]
        rw [ih _ _ later hrest hfollows]
        simp [Option.map_map, comp_def]

end ByRecord

namespace Output

variable {layout : Layout} {windowSize : ℕ} {out : Output}

/-- **Writing by range.** -/
theorem writeByRange_ensures (hwindow : 0 < windowSize) (e : Emission) (happended : e.appended = none)
    (h : Tracks e.layout out) (hempty : out.sink.bytes = []) {m : ℕ}
    (hm : m ≤ out.source.content.length)
    (hmark : endsWithReturn e.layout (out.source.content.take m) = false)
    (records : PlannedRecords)
    (hrecords : e.Follows m (rawRecords e.layout (out.source.content.drop m)) records.entries) :
    Leaves (writeByRange e.layout windowSize records out.source.content.length e.fallback) out
      (fun _ t => ∃ outs,
        e.emit (rawRecords e.layout (out.source.content.drop m)) m (out.source.content.take m) =
          some outs ∧
        Wrote e.layout out (out.source.content.take m ++ outs.flatten) t) := by
  refine (writeRanges_ensures hwindow e.fallback records.entries 0 out h).next ?_
  rintro reached t ⟨added, hadded, hranges⟩
  refine (copy_ensures hwindow hadded.tracks ⟨reached, out.source.content.length⟩).imp ?_
  rintro _ u ⟨tail, htail, hcopied⟩
  rw [hadded.bytes, hadded.content] at hcopied
  have hout := hranges tail hcopied
  -- the byte-order mark is copied in front of everything else
  have hpiece : piece out.source.content 0 m = out.source.content.take m := by
    rw [piece, drop_zero, Nat.sub_zero]
  rw [hempty, rangesOut_split (some (out.source.content.take m)) (fun finish hfinish => by
      rw [copied_of_not_return (endsWithReturn_nil _), Option.bind_some, nil_append,
        copied_of_not_return hmark, ← piece_append _ (Nat.zero_le m) hfinish, hpiece]
      rfl) hm hrecords.le, Option.bind_some, nil_append,
    rangesOut_eq_emit e happended _ m _ records.entries rfl hrecords, Option.map_map,
    Option.map_eq_some_iff] at hout
  obtain ⟨outs, houts, hbytes⟩ := hout
  refine ⟨outs, houts, ?_⟩
  have hboth := hadded.trans htail
  rwa [← hbytes] at hboth

/-! ## Writing by record -/

theorem writeExtended_ensures (h : Tracks layout out) (start : ℕ) (bytes fields : Bytes) :
    Leaves (writeExtended layout start bytes fields) out
      (fun _ t => endsInsideQuotes bytes layout = false ∧
        Wrote layout out (contentOf layout bytes ++ fields ++ terminatorOf layout bytes) t) := by
  unfold writeExtended
  by_cases hinside : endsInsideQuotes bytes layout = true
  · rw [if_pos hinside]
    exact .stop
  · rw [if_neg hinside]
    refine (write_ensures h _).next ?_
    intro _ t hcontent
    refine (write_ensures hcontent.tracks _).next ?_
    intro _ u hfields
    refine (write_ensures hfields.tracks _).imp ?_
    intro _ v hterm
    exact ⟨Bool.eq_false_iff.mpr hinside, (hcontent.trans hfields).trans hterm⟩

variable {appended : AppendedFields}

theorem visitRecord_ensures (e : Emission) (happended : e.appended = some appended)
    (h : Tracks e.layout out) (start : ℕ) (raw : Bytes) (records : PlannedRecords)
    (hplan : records.get? start = e.plan start) :
    Leaves (visitRecord e.layout appended e.headerStart e.fallback start raw records) out
      (fun left t => ∃ outs, e.outsOf out.sink.bytes start raw = some outs ∧
        Wrote e.layout out outs.flatten t ∧ ∀ k, k ≠ start → left.get? k = records.get? k) := by
  unfold visitRecord
  rw [hplan]
  cases hrecord : e.plan start with
  | none =>
    refine (writeExtended_ensures h start raw _).next ?_
    rintro _ t ⟨hclosed, hwrote⟩
    refine .pure ⟨[_], ?_, by simpa using hwrote, fun k _ => rfl⟩
    simp [outsOf, actionAt, insertedAt, Emission.kept, fieldsAt, hrecord, happended, hclosed]
  | some record =>
    dsimp only
    by_cases hfinish : record.finish ≠ start + raw.length
    · rw [if_pos hfinish]
      exact .stop
    · rw [if_neg hfinish]
      have herase : ∀ k, k ≠ start → (records.erase start).get? k = records.get? k := by
        intro k hk
        rw [OrderedMap.get?_erase, if_neg hk]
      refine (writeInserted_ensures _ e.fallback record.insertedBefore out h).next ?_
      intro _ t hinserted
      have hins : e.insertedAt start raw = record.insertedBefore.map
          (· ++ if (terminatorOf e.layout raw).isEmpty then e.fallback
            else terminatorOf e.layout raw) := by
        simp [insertedAt, Emission.insertedTerminator, hrecord]
      rw [← hins] at hinserted
      have hactionAt : e.actionAt start = record.action := by simp [actionAt, hrecord]
      cases haction : record.action with
      | keep =>
        refine (writeExtended_ensures hinserted.tracks start raw _).next ?_
        rintro _ u ⟨hclosed, hwrote⟩
        refine .pure ⟨e.insertedAt start raw ++ [_], ?_,
          by simpa using hinserted.trans hwrote, herase⟩
        simp [outsOf, hactionAt, haction, Emission.kept, fieldsAt, hrecord, happended, hclosed]
      | replace rendered =>
        refine (write_ensures hinserted.tracks rendered).next ?_
        intro _ u hrendered
        refine (write_ensures hrendered.tracks _).next ?_
        intro _ v hterm
        refine .pure ⟨e.insertedAt start raw ++ [rendered ++ terminatorOf e.layout raw], ?_,
          by simpa using hinserted.trans (hrendered.trans hterm), herase⟩
        rw [outsOf, hactionAt, haction]
      | delete =>
        refine .pure ⟨e.insertedAt start raw, ?_, hinserted, herase⟩
        rw [outsOf, hactionAt, haction]

/-- The loop writes what is left of the source, record by record. -/
theorem visitRecords_ensures (hwindow : 0 < windowSize) (e : Emission)
    (happended : e.appended = some appended) (content : Bytes) :
    ∀ (fuel : ℕ) (cursor : Cursor) (records : PlannedRecords) (out : Output),
    Tracks e.layout out → out.source.content = content → cursor.Reads content →
    content.length - cursor.offset < fuel →
    (∀ k, cursor.offset ≤ k → records.get? k = e.plan k) →
    Leaves (visitRecords e.layout windowSize content.length appended e.headerStart e.fallback fuel
        cursor records) out
      (fun _ t => ∃ outs,
        e.emit (rawRecords e.layout (content.drop cursor.offset)) cursor.offset out.sink.bytes =
          some outs ∧ Wrote e.layout out outs.flatten t) := by
  intro fuel
  induction fuel with
  | zero => intro _ _ _ _ _ _ hfuel; omega
  | succ fuel ih =>
    intro cursor records out h hcontent hreads hfuel hplan
    subst hcontent
    refine (onSource_ensures h
      ((nextRecord_ensures hreads hwindow).mono (fun _ _ hnext => hnext) fun _ _ => trivial)).next ?_
    rintro ⟨found, next⟩ t ⟨hnowrite, hfind⟩
    obtain ⟨hnext, hoffset, hfound, hfetched⟩ := id hfind
    dsimp only at hnext hoffset hfound hfetched ⊢
    have hbytes : t.sink.bytes = out.sink.bytes := by rw [hnowrite.bytes, append_nil]
    cases found with
    | none =>
      rw [hfind.eq_nil]
      exact .pure ⟨[], rfl, hnowrite⟩
    | some length =>
      have hlength := hfetched length rfl
      have htake := hfind.take
      have hraw := rawRecords_eq hfound.symm
      have hbounds := recordLength_bounds hfound.symm
      rw [length_drop] at hbounds
      have hrawLength : (next.remaining.take length).length = length :=
        length_take_of_le hlength
      refine (visitRecord_ensures e happended hnowrite.tracks next.offset
        (next.remaining.take length) records (hplan _ hoffset.ge)).next ?_
      rintro left u ⟨outs, houts, hwrote, hleft⟩
      have hsofar := hnowrite.trans hwrote
      obtain ⟨hconsumed, hadvance⟩ := hnext.consume hlength
      rw [hoffset] at hadvance
      refine (ih (next.consume length) left u hwrote.tracks hsofar.content hconsumed
        (by omega) ?_).imp ?_
      · intro k hk
        rw [hleft k (by omega), hplan k (by omega)]
      · rintro _ v ⟨following, hfollowing, hrest⟩
        refine ⟨outs ++ following, ?_, ?_⟩
        · rw [hadvance, hsofar.bytes, nil_append] at hfollowing
          rw [hbytes, hoffset, htake] at houts
          rw [htake] at hrawLength
          rw [hraw, emit, houts, Option.bind_some, hrawLength, drop_drop, hfollowing]
          rfl
        · rw [flatten_append]
          have hall := hsofar.trans hrest
          rwa [nil_append] at hall

/-- **Writing by record.** -/
theorem writeByRecord_ensures (hwindow : 0 < windowSize) (e : Emission)
    (happended : e.appended = some appended) (h : Tracks e.layout out) (reader : PagedReader)
    (hlength : reader.length = out.source.content.length)
    (hm : reader.byteOrderMarkLength ≤ out.source.content.length) (records : PlannedRecords)
    (hplan : ∀ k, records.get? k = e.plan k) :
    Leaves (writeByRecord e.layout windowSize reader records appended e.headerStart e.fallback) out
      (fun _ t => ∃ outs,
        e.emit (rawRecords e.layout (out.source.content.drop reader.byteOrderMarkLength))
          reader.byteOrderMarkLength out.sink.bytes = some outs ∧
        Wrote e.layout out outs.flatten t) := by
  unfold writeByRecord
  rw [hlength]
  refine (visitRecords_ensures hwindow e happended out.source.content _
    (Cursor.atOffset reader.byteOrderMarkLength) records out h rfl (Cursor.reads_atOffset hm)
    (by omega) fun k _ => hplan k).next ?_
  intro left t hout
  cases left.entries with
  | nil => exact .pure hout
  | cons entry rest => exact .throw trivial

end Output

end Dbflux.Delimited

import Dbflux.Delimited.Invalidate
import Dbflux.Delimited.WriterPieces

/-!
# What a saved file reads back as

`editedRecords` says what a set of edits makes of the records of a source,
without bytes: deleted records are gone, replaced ones have the given fields,
inserted ones are at their positions and the others are followed by the values
of the appended columns. A file that `write_edited` saved reads back as that.

One kind of edit set is an exception. When the final record ends inside a quote
that is never closed and is kept, what is inserted at the end continues that
quote (`EditSet.Swallowed`). With appended columns the writer refuses such a
record; without them it does not look.

Results:
* `emit_pieces`: the output of the source's records is a list of pieces.
* `emit_not_mark`: the output does not start like a byte-order mark.
* `saved_reads_edited`: reading the output gives the edited records.
-/

namespace Dbflux.Delimited

open Lib List
open Output (firstCopied atEndBytes fresh)
open PagedReader (commaDialect plainSource singleRecordPages readPage openReader)

/-! ## The edited records -/

/-- What the record at `start` with these fields becomes. -/
def EditSet.editedAt (edits : EditSet) (headerStart : Option ℕ) (start : ℕ) (fields : List Text) :
    List (List Text) :=
  (edits.insertionsBefore start).map writtenFields ++
    match edits.replacementAt start with
    | some replacement => [writtenFields replacement]
    | none =>
      if edits.deletesAt start then []
      else [fields ++ appendedValues edits.appendedColumns (decide (headerStart = some start)) start]

/-- The records of a source after the edits, by their fields. -/
def EditSet.editedRecords (edits : EditSet) (dialect : Dialect) (layout : Layout)
    (content : Bytes) : List (List Text) :=
  (allRecords dialect layout content).flatMap (fun record =>
    edits.editedAt (headerStartOf dialect layout content) record.start record.fields) ++
  edits.insertionsAtEnd.map writtenFields

/-- The record at `start` is neither replaced nor deleted. -/
def EditSet.keepsAt (edits : EditSet) (start : ℕ) : Bool :=
  (edits.replacementAt start).isNone && !edits.deletesAt start

/-- Records are inserted behind a final record that is kept and ends inside
quotes. -/
def EditSet.Swallowed (edits : EditSet) (dialect : Dialect) (layout : Layout) (content : Bytes) :
    Prop :=
  edits.appendedColumns = [] ∧ edits.insertionsAtEnd ≠ [] ∧
    ∃ raw ∈ (allRaw dialect layout content).getLast?,
      endsInsideQuotes raw layout = true ∧ edits.keepsAt (content.length - raw.length) = true

instance (edits : EditSet) (dialect : Dialect) (layout : Layout) (content : Bytes) :
    Decidable (edits.Swallowed dialect layout content) :=
  inferInstanceAs (Decidable (_ ∧ _))

/-! ## The emission follows the edits -/

section Emission

variable {dialect : Dialect} {layout : Layout} {content : Bytes} {edits : EditSet} {plan : Plan}
  {checked : PlannedRecords} {output : Bytes} {outs : List Bytes}

/-- Checking the records changes nothing but their terminators. -/
theorem editsAt_checked (h : Output.Checked layout content plan.records checked) (k : ℕ) :
    editsAt checked k = editsAt plan.records k := by
  unfold editsAt
  rw [h k]
  cases plan.records.get? k <;> rfl

variable (h : Saved dialect edits content output layout plan checked outs)
include h

theorem actionAt_eq (k : ℕ) : h.emission.actionAt k = (editsAt plan.records k).action := by
  rw [← editsAt_checked h.terminators]
  show ((checked.get? k).map RecordPlan.action).getD .keep = _
  unfold editsAt
  cases checked.get? k <;> rfl

theorem insertedAt_eq (k : ℕ) (raw : Bytes) :
    h.emission.insertedAt k raw = (editsAt plan.records k).insertedBefore.map
      (· ++ h.emission.insertedTerminator raw) := by
  rw [← editsAt_checked h.terminators]
  show (((checked.get? k).map RecordPlan.insertedBefore).getD []).map _ = _
  unfold editsAt
  cases checked.get? k <;> rfl

theorem fieldsAt_eq (fields : AppendedFields) (k : ℕ) : h.emission.fieldsAt fields k =
      appendedBytes fields (headerStartOf dialect layout content) (editsAt plan.records k) k := by
  rw [← editsAt_checked h.terminators]
  show ((checked.get? k).bind RecordPlan.appended).getD _ = _
  unfold editsAt appendedBytes
  cases checked.get? k <;> rfl

theorem fallback_eq (hinsertions : edits.insertions ≠ []) :
    h.emission.fallback = fallbackTerminator layout (allRaw dialect layout content) :=
  if_neg (by simpa using hinsertions)

omit h in
theorem isTerminator_fallback (layout : Layout) (records : List Bytes) :
    IsTerminator layout (fallbackTerminator layout records) := by
  unfold fallbackTerminator
  dsimp only
  split_ifs with hempty
  · exact isTerminator_lineFeed layout
  · cases hhead : records.head? with
    | none =>
      rw [hhead] at hempty
      exact absurd rfl hempty
    | some raw =>
      rw [hhead] at hempty
      exact (terminatorOf_cases raw).resolve_left fun hnil => hempty (by
        show (terminatorOf layout raw).isEmpty = true
        rw [hnil]
        rfl)

end Emission

/-! ## Rendered records -/

section Rendered

variable {layout : Layout} {encoding : Encoding}

theorem decoded_encodes (hfaithful : encoding.Faithful) {texts : List Text} {encoded : List Bytes}
    (h : Encodes encoding texts encoded) : decoded encoding encoded = texts := by
  induction h with
  | nil => rfl
  | cons htext _ ih =>
    show (encoding.decode _).1 :: decoded encoding _ = _
    rw [hfaithful _ _ htext, ih]

/-- A rendered record is a body with the fields it was rendered from. -/
theorem Rendered.rendersRecord (hfaithful : encoding.Faithful)
    (hwidth : layout.width = encoding.width) {fields : List Text} {bytes : Bytes}
    (h : Rendered ⟨layout, encoding⟩ fields bytes) :
    bytes ≠ [] ∧ ∃ encoded, RendersRecord layout bytes encoded ∧
      decoded encoding encoded = writtenFields fields := by
  obtain ⟨location, hrecord⟩ := h
  have hwidth' : (Renderer.mk layout encoding).layout.width =
      (Renderer.mk layout encoding).encoding.width := hwidth
  obtain ⟨encoded, hencodes, hrenders⟩ := record_renders hwidth' hrecord
  exact ⟨record_ne_nil hfaithful (record_start hwidth' hrecord), encoded, hrenders,
    decoded_encodes hfaithful hencodes⟩

/-- Inserted records, each with a line break. -/
theorem pieces_inserted (terminator : Bytes) (hfaithful : encoding.Faithful)
    (hwidth : layout.width = encoding.width) :
    ∀ {texts : List (List Text)} {rendered : List Bytes} (written : Bytes),
    List.Forall₂ (Rendered ⟨layout, encoding⟩) texts rendered →
    (texts ≠ [] → IsTerminator layout terminator) →
    Pieces layout encoding written (rendered.map (· ++ terminator)) (texts.map writtenFields) ∧
      ∀ p ∈ rendered.map (· ++ terminator), Terminated layout p := by
  intro texts rendered written h
  induction h generalizing written with
  | nil =>
    intro _
    exact ⟨.nil written, fun p hp => by cases hp⟩
  | @cons fields bytes texts rendered hfields hrest ih =>
    intro hterm
    have hterminator := hterm (cons_ne_nil _ _)
    obtain ⟨hne, encoded, hrenders, hdecoded⟩ := hfields.rendersRecord hfaithful hwidth
    obtain ⟨hpieces, hterminated⟩ := ih (written ++ (bytes ++ terminator)) fun _ => hterminator
    refine ⟨.cons ?_ hpieces, forall_mem_cons.mpr ⟨hrenders.terminated hterminator, hterminated⟩⟩
    rw [← hdecoded]
    exact hrenders.piece hne (.inr hterminator) written

end Rendered

/-! ## One source record -/

/-- The output of one source record: what is inserted before it, and itself
unless it is deleted. `closed` says that it does not end inside quotes. -/
inductive RecordOut (layout : Layout) (encoding : Encoding) (written raw : Bytes) (isDeleted : Bool)
    (closed : Prop) : List Bytes → List (List Text) → Prop
  | deleted {inserted : List Bytes} {fields : List (List Text)} (hdeleted : isDeleted = true)
      (hinserted : Pieces layout encoding written inserted fields)
      (hterminated : ∀ p ∈ inserted, Terminated layout p) :
      RecordOut layout encoding written raw isDeleted closed inserted fields
  | own {inserted : List Bytes} {fields : List (List Text)} {own : Bytes} {ownFields : List Text}
      (hkept : isDeleted = false) (hinserted : Pieces layout encoding written inserted fields)
      (hterminated : ∀ p ∈ inserted, Terminated layout p)
      (hpiece : Piece layout encoding (written ++ inserted.flatten) own ownFields)
      (hown : closed → OwnOut layout encoding (written ++ inserted.flatten) raw own ownFields) :
      RecordOut layout encoding written raw isDeleted closed (inserted ++ [own])
        (fields ++ [ownFields])

namespace RecordOut

variable {layout : Layout} {encoding : Encoding} {written raw : Bytes} {isDeleted : Bool}
  {closed : Prop} {outs : List Bytes} {fields : List (List Text)}

variable (h : RecordOut layout encoding written raw isDeleted closed outs fields)
include h

theorem pieces : Pieces layout encoding written outs fields := by
  cases h with
  | deleted _ hinserted _ => exact hinserted
  | own _ hinserted _ hpiece _ => exact hinserted.append (.cons hpiece (.nil _))

/-- The output of a closed record with a terminator is terminated. -/
theorem terminated (hclosed : closed) (hterm : terminatorOf layout raw ≠ []) :
    ∀ p ∈ outs, Terminated layout p := by
  cases h with
  | deleted _ _ hterminated => exact hterminated
  | own _ _ hterminated _ hown =>
    exact forall_mem_append.mpr
      ⟨hterminated, forall_mem_singleton.mpr ((hown hclosed).terminated hterm)⟩

/-- All but the last output record are terminated. -/
theorem dropLast : ∀ p ∈ outs.dropLast, Terminated layout p := by
  cases h with
  | deleted _ _ hterminated => exact fun p hp => hterminated p ((dropLast_sublist _).subset hp)
  | own _ _ hterminated _ _ =>
    rw [dropLast_concat]
    exact hterminated

omit h

end RecordOut

section Records

variable {dialect : Dialect} {layout : Layout} {content output : Bytes} {edits : EditSet}
  {plan : Plan} {checked : PlannedRecords} {allOuts : List Bytes}

/-- The record does not end inside quotes, or it is rewritten, or the writer
has to look. -/
def EditSet.ClosedAt (edits : EditSet) (layout : Layout) (start : ℕ) (raw : Bytes) : Prop :=
  edits.keepsAt start = false ∨ edits.appendedColumns ≠ [] ∨
    ∃ body term, Shaped layout raw body term

theorem keepsAt_iff (edits : EditSet) (start : ℕ) : edits.keepsAt start = true ↔
    edits.replacementAt start = none ∧ edits.deletesAt start = false := by
  unfold EditSet.keepsAt
  rw [Bool.and_eq_true, Option.isNone_iff_eq_none, Bool.not_eq_true']

variable {start k lastStart : ℕ} {raw written last data bytes : Bytes} {raws : List Bytes}
  {encoding : Encoding}

/-! ## Records by their place -/

/-- The records in front of the last one are made of whole units. -/
theorem dvd_length_before {before : List Bytes} (h : rawRecords layout data = before ++ [last]) :
    layout.width.size ∣ before.flatten.length := by
  have hflatten := rawRecords_flatten layout data
  rw [h, flatten_append] at hflatten
  have hlast : last ≠ [] := rawRecords_ne_nil (by rw [h]; simp)
  have hleads : Leads layout before last := by
    have hdata : before.flatten ++ last = data := by simpa using hflatten
    have hdrop := rawRecords_drop layout data before.length
    rw [h, take_left, drop_left, ← hdata, drop_left] at hdrop
    rw [Leads, hdata, h, hdrop]
  exact hleads.dvd_length hlast

theorem terminatorLength_le (hwhole : layout.width.size ∣ bytes.length) :
    terminatorLength bytes layout ≤ bytes.length := by
  have hlength := length_of_whole hwhole
  have hroom : ∀ i, (layout.width.units bytes).reverse[i]? ≠ none →
      (i + 1) * layout.width.size ≤ bytes.length := by
    intro i hi
    rw [ne_eq, getElem?_eq_none_iff, length_reverse] at hi
    rw [hlength, Nat.mul_comm]
    exact Nat.mul_le_mul_left _ (by omega)
  rw [terminatorLength_eq hwhole]
  split_ifs with hpair hsingle
  · exact hroom 1 (by rw [hpair.2]; simp)
  · have := hroom 0 (by rcases hsingle with h | h <;> rw [h] <;> simp)
    omega
  · exact Nat.zero_le _

theorem units_length_pos (hwhole : layout.width.size ∣ bytes.length) (hne : bytes ≠ []) :
    0 < (layout.width.units bytes).length := by
  by_contra hzero
  have hlength := length_of_whole hwhole
  rw [Nat.eq_zero_of_not_pos hzero, Nat.mul_zero] at hlength
  exact hne (length_eq_zero_iff.mp hlength)

/-- The data ends with the terminator of its last record. -/
theorem terminatorOf_last (h : (rawRecords layout data).getLast? = some last) :
    terminatorOf layout data = terminatorOf layout last := by
  obtain ⟨before, hbefore⟩ := getLast?_eq_some_iff.mp h
  have hflatten := rawRecords_flatten layout data
  rw [hbefore, flatten_append, flatten_singleton] at hflatten
  have hlast : last ≠ [] := rawRecords_ne_nil (by rw [hbefore]; simp)
  have hx := dvd_length_before hbefore
  by_cases hwhole : layout.width.size ∣ last.length
  · have hdata : layout.width.size ∣ data.length := by
      rw [← hflatten, length_append]
      exact Nat.dvd_add hx hwhole
    have hunits : layout.width.units data =
        layout.width.units before.flatten ++ layout.width.units last := by
      rw [← hflatten, layout.width.units_append _ hx]
    have hcount := units_length_pos hwhole hlast
    have hfirst : (layout.width.units data).reverse[0]? =
        (layout.width.units last).reverse[0]? := by
      rw [hunits, reverse_append, getElem?_append_left (by simpa using hcount)]
    -- a carriage return in front of a last record that is a line feed would belong to it
    have hsecond : (layout.width.units data).reverse[0]? = some lineFeed →
        ((layout.width.units data).reverse[1]? = some carriageReturn ↔
          (layout.width.units last).reverse[1]? = some carriageReturn) := by
      intro hfeed
      rw [hunits, reverse_append]
      by_cases htwo : 1 < (layout.width.units last).length
      · rw [getElem?_append_left (by simpa using htwo)]
      · obtain ⟨u, hu⟩ : ∃ u, layout.width.units last = [u] :=
          length_eq_one_iff.mp (by omega)
        rw [hfirst, hu] at hfeed
        cases hfeed
        rw [hu]
        simp only [reverse_singleton, singleton_append, getElem?_cons_succ,
          getElem?_nil, reduceCtorEq, iff_false]
        intro hreturn
        rcases eq_nil_or_concat before with rfl | ⟨front, q, rfl⟩
        · rw [flatten_nil, layout.width.units_nil] at hreturn
          cases hreturn
        · rw [concat_eq_append] at hbefore hx hreturn
          have hq : EndsBefore layout q last := by
            have hdrop := rawRecords_drop layout data front.length
            rw [hbefore, append_assoc, take_left, drop_left] at hdrop
            simpa using (endsBefore_of_rawRecords hdrop).2.1
          have hqwhole := hq.dvd_length hlast
          have hfront : layout.width.size ∣ front.flatten.length := by
            rw [flatten_append, flatten_singleton, length_append] at hx
            exact (Nat.dvd_add_left hqwhole).mp hx
          have hqcount := units_length_pos hqwhole hq.ne_nil
          rw [flatten_append, flatten_singleton, layout.width.units_append _ hfront,
            reverse_append, getElem?_append_left (by simpa using hqcount),
            ← head?_eq_getElem?, head?_reverse] at hreturn
          exact hq.next_ne_lineFeed hreturn (by rw [hu]; rfl)
    have hlength : terminatorLength data layout = terminatorLength last layout := by
      rw [terminatorLength_eq hdata, terminatorLength_eq hwhole, hfirst]
      by_cases hfeed : (layout.width.units last).reverse[0]? = some lineFeed
      · have hiff := hsecond (by rw [hfirst, hfeed])
        simp [hiff]
      · simp [hfeed]
    have hle := terminatorLength_le hwhole
    have htotal : data.length = before.flatten.length + last.length := by
      rw [← hflatten, length_append]
    unfold terminatorOf
    rw [hlength, htotal, Nat.add_sub_assoc hle, ← hflatten, drop_length_add_append]
  · rw [terminatorOf_of_not_whole, terminatorOf_of_not_whole]
    · exact fun hmod => hwhole (Nat.dvd_of_mod_eq_zero hmod)
    · intro hmod
      rw [← hflatten, length_append] at hmod
      exact hwhole ((Nat.dvd_add_right hx).mp (Nat.dvd_of_mod_eq_zero hmod))

/-- A record that ends where the records end is the last one. -/
theorem IsRecordAt.eq_last (h : IsRecordAt start raws k raw) (hne : ∀ r ∈ raws, r ≠ [])
    (hlast : raws.getLast? = some last)
    (hplace : lastStart + last.length = start + raws.flatten.length)
    (hend : k + raw.length = start + raws.flatten.length) : k = lastStart ∧ raw = last := by
  obtain ⟨before, after, rfl, rfl⟩ := h
  rw [flatten_append, flatten_cons, length_append, length_append] at hend hplace
  have hafter : after = [] := by
    by_contra hne'
    obtain ⟨r, rest, rfl⟩ := exists_cons_of_ne_nil hne'
    have := length_pos_iff.mpr (hne r (by simp))
    rw [flatten_cons, length_append] at hend
    omega
  subst hafter
  rw [getLast?_concat] at hlast
  cases hlast
  exact ⟨by omega, rfl⟩

/-- A record is known by its place. -/
theorem IsRecordAt.unique {raw' : Bytes} : ∀ {raws : List Bytes} {start : ℕ},
    (∀ r ∈ raws, r ≠ []) → IsRecordAt start raws k raw → IsRecordAt start raws k raw' →
    raw = raw' := by
  intro raws
  induction raws with
  | nil => exact fun _ h _ => absurd h not_isRecordAt_nil
  | cons p rest ih =>
    intro start hne h h'
    have hpos := length_pos_iff.mpr (hne p mem_cons_self)
    rcases isRecordAt_cons.mp h with ⟨rfl, rfl⟩ | hrest
    · rcases isRecordAt_cons.mp h' with ⟨-, rfl⟩ | hrest'
      · rfl
      · have := hrest'.le
        omega
    · rcases isRecordAt_cons.mp h' with ⟨rfl, rfl⟩ | hrest'
      · have := hrest.le
        omega
      · exact ih (fun r hr => hne r (mem_cons_of_mem _ hr)) hrest hrest'

theorem isRecordAt_last (hlast : raws.getLast? = some last)
    (hplace : lastStart + last.length = start + raws.flatten.length) :
    IsRecordAt start raws lastStart last := by
  obtain ⟨before, rfl⟩ := getLast?_eq_some_iff.mp hlast
  refine ⟨before, [], rfl, ?_⟩
  rw [flatten_append, flatten_singleton, length_append] at hplace
  omega

variable {records : PlannedRecords}

theorem recordsFrom_fields : ∀ (raws : List Bytes) (start : ℕ),
    (recordsFrom layout encoding start raws).map Record.fields =
      raws.map fun raw => (decodeFields raw layout encoding).1 := by
  intro raws
  induction raws with
  | nil => exact fun start => rfl
  | cons raw rest ih =>
    intro start
    rw [recordsFrom, map_cons, map_cons, ih]
    rfl

/-- A record with an entry that has nothing inserted before it. -/
theorem firstCopied_eq (fuel : ℕ) (hbefore : (editsAt records start).insertedBefore = []) :
    ((editsAt records start).action = .keep →
      Output.firstCopied records (fuel + 1) start = some start) ∧
    ((editsAt records start).action = .delete → ∃ record, records.get? start = some record ∧
      Output.firstCopied records (fuel + 1) start =
        Output.firstCopied records fuel record.finish) := by
  unfold editsAt at hbefore ⊢
  cases hget : records.get? start with
  | none =>
    exact ⟨fun _ => by rw [firstCopied, hget], fun hdelete => by cases hdelete⟩
  | some record =>
    have hnone : record.insertedBefore = [] := by rwa [hget] at hbefore
    refine ⟨fun hkeep => ?_, fun hdelete => ⟨record, rfl, ?_⟩⟩
    · have hkeep : record.action = .keep := hkeep
      simp [firstCopied, hget, hnone, hkeep]
    · have hdelete : record.action = .delete := hdelete
      simp [firstCopied, hget, hnone, hdelete]

/-! ## The byte-order mark -/

/-- The bytes do not start like the mark of the encoding. -/
def NotMark (encoding : Encoding) (bytes : Bytes) : Prop :=
  byteOrderMark encoding ≠ [] → ¬ byteOrderMark encoding <+: bytes

theorem IsTerminator.special (h : IsTerminator layout bytes) (encoding : Encoding) :
    ∃ unit rest, isSpecial encoding unit ∧ bytes = layout.width.unitBytes unit ++ rest := by
  obtain ⟨term, hmem, hne, rfl⟩ := h
  rcases mem_terminators.mp hmem with rfl | rfl | rfl | rfl
  · exact absurd rfl hne
  · exact ⟨lineFeed, [], isSpecial_lineFeed encoding, by simp⟩
  · exact ⟨carriageReturn, [], isSpecial_carriageReturn encoding, by simp⟩
  · exact ⟨carriageReturn, layout.width.unitBytes lineFeed, isSpecial_carriageReturn encoding,
      by simp⟩

theorem NotMark.append_terminator (hwidth : layout.width = encoding.width) {p : Bytes}
    (h : NotMark encoding p) (hp : layout.width.size ∣ p.length)
    (hbytes : IsTerminator layout bytes) (rest : Bytes) :
    NotMark encoding (p ++ (bytes ++ rest)) := by
  intro hmark
  obtain ⟨unit, more, hunit, rfl⟩ := hbytes.special encoding
  rw [hwidth] at hp ⊢
  rw [append_assoc]
  exact not_mark_append_special hp (h hmark) hunit hmark _

/-- Pieces of which the first does not start like the mark. -/
theorem Pieces.notMark (hwidth : layout.width = encoding.width) {ps : List Bytes}
    {fields : List (List Text)} (h : Pieces layout encoding written ps fields)
    (hterm : ∀ p ∈ ps.dropLast, Terminated layout p) (hhead : ∀ p ∈ ps.head?, NotMark encoding p) :
    NotMark encoding ps.flatten := by
  intro hmark
  cases h with
  | nil =>
    rw [flatten_nil, prefix_nil]
    exact hmark
  | @cons _ p ps fields rest hpiece hrest =>
    have hp := hhead p rfl
    cases ps with
    | nil =>
      rw [flatten_singleton]
      exact hp hmark
    | cons q ps =>
      obtain ⟨body, term, hshape, hne⟩ := hterm p mem_cons_self
      have hbody : NotMark encoding (contentOf layout p) := fun hmark hstarts =>
        hp hmark (hstarts.trans ⟨_, contentOf_append_terminatorOf layout p⟩)
      have hterminator : IsTerminator layout (terminatorOf layout p) := by
        rw [hshape.terminatorOf]
        exact ⟨term, hshape.term, hne, rfl⟩
      have := hbody.append_terminator hwidth hshape.rendersRecord.whole hterminator
        (q :: ps).flatten hmark
      rwa [← append_assoc, contentOf_append_terminatorOf] at this

/-! ## What the output consists of -/

/-- The output of the records from `start` on: the last one's is apart, since
only that one may lack a terminator or end inside quotes. -/
structure SourceOut (edits : EditSet) (dialect : Dialect) (layout : Layout) (content : Bytes)
    (start : ℕ) (raws : List Bytes) (written : Bytes) (outs : List Bytes) (last : Bytes)
    (lastStart : ℕ) (init lastOuts : List Bytes) (initFields lastFields : List (List Text)) :
    Prop where
  outs_eq : outs = init ++ lastOuts
  pieces : Pieces layout dialect.encoding written init initFields
  terminated : ∀ p ∈ init, Terminated layout p
  last_eq : raws.getLast? = some last
  place : lastStart + last.length = start + raws.flatten.length
  single : EndsBefore layout last []
  lastOut : RecordOut layout dialect.encoding (written ++ init.flatten) last
    (edits.deletesAt lastStart) (edits.ClosedAt layout lastStart last) lastOuts lastFields
  fields : (recordsFrom layout dialect.encoding start raws).flatMap (fun record =>
      edits.editedAt (headerStartOf dialect layout content) record.start record.fields) =
    initFields ++ lastFields

/-- The plan has no edits. -/
def Plan.IsEmpty (plan : Plan) : Prop :=
  plan.records.entries = [] ∧ plan.insertedAtEnd = [] ∧ plan.appended = none

/-- The output as pieces, after the mark. -/
structure OutputPieces (edits : EditSet) (dialect : Dialect) (layout : Layout)
    (content output : Bytes) (outs pieces : List Bytes) : Prop where
  output_eq : output = content.take (markLength dialect.encoding content) ++ pieces.flatten
  chain : Pieces layout dialect.encoding (content.take (markLength dialect.encoding content)) pieces
    (edits.editedRecords dialect layout content)
  terminated : ∀ p ∈ pieces.dropLast, Terminated layout p
  notMark : (∀ p ∈ outs.head?, NotMark dialect.encoding p) →
    ∀ p ∈ pieces.head?, NotMark dialect.encoding p

variable (h : Saved dialect edits content output layout plan checked allOuts)
include h

/-! ## The source records -/

/-- A kept record is copied, or its body is followed by further fields. -/
theorem kept_cases {x own : Bytes} (hends : EndsBefore layout raw x)
    (hwhole : layout.width.size ∣ raw.length)
    (hkeep : (editsAt plan.records start).action = .keep)
    (hown : h.emission.kept written start raw = some own) :
    (edits.appendedColumns = [] ∧ copied layout written raw = some own) ∨
    ∃ body term encoded tail, Shaped layout raw body term ∧
      Encodes dialect.encoding (appendedValues edits.appendedColumns
        (decide (headerStartOf dialect layout content = some start)) start) encoded ∧
      encoded ≠ [] ∧ RendersTail layout tail encoded ∧
      own = contentOf layout raw ++ tail ++ terminatorOf layout raw := by
  unfold Emission.kept at hown
  cases happended : plan.appended with
  | none =>
    rw [show h.emission.appended = none from happended] at hown
    exact .inl ⟨h.planned.columns.mpr happended, hown⟩
  | some fields =>
    rw [show h.emission.appended = some fields from happended] at hown
    split_ifs at hown with hinside
    cases hown
    obtain ⟨body, term, hshape, -⟩ := shaped_of_endsBefore hends hwhole
      (Or.inr (Bool.eq_false_iff.mpr hinside))
    obtain ⟨encoded, hencodes, htail⟩ := h.planned.appended fields happended start hkeep
    refine .inr ⟨body, term, encoded, _, hshape, hencodes, ?_, htail, ?_⟩
    · rintro rfl
      have hcolumns := hencodes.length_eq
      simp only [appendedValues, length_map, length_nil, length_eq_zero_iff] at hcolumns
      rw [h.planned.columns.mp hcolumns] at happended
      cases happended
    · rw [← fieldsAt_eq h]
      rfl

/-- **One record.** -/
theorem outsOf_recordOut
    (hfaithful : dialect.encoding.Faithful) {x : Bytes} (hends : EndsBefore layout raw x)
    (hwhole : edits.keepsAt start = true → layout.width.size ∣ raw.length) {outs : List Bytes}
    (houts : h.emission.outsOf written start raw = some outs) :
    RecordOut layout dialect.encoding written raw (edits.deletesAt start)
      (edits.ClosedAt layout start raw) outs
      (edits.editedAt (headerStartOf dialect layout content) start
        (decodeFields raw layout dialect.encoding).1) := by
  have hwidth := (forDialect_ok h.forDialect).1
  set e := h.emission with he
  -- what is inserted before the record
  obtain ⟨hinserted, hterminated⟩ := pieces_inserted (e.insertedTerminator raw) hfaithful
    hwidth written (h.planned.inserted start) fun hne => by
      show IsTerminator layout (if (terminatorOf layout raw).isEmpty then _ else _)
      split_ifs with hempty
      · rw [fallback_eq h]
        · exact isTerminator_fallback layout _
        · rintro hnil
          rw [EditSet.insertionsBefore, hnil] at hne
          exact hne rfl
      · exact (terminatorOf_cases raw).resolve_left fun hnil => hempty (by rw [hnil]; rfl)
  rw [← insertedAt_eq h] at hinserted hterminated
  unfold Emission.outsOf at houts
  rw [actionAt_eq h] at houts
  unfold EditSet.editedAt
  rcases h.planned.action_cases start with ⟨fields, bytes, hreplaced, hnot, hbytes, hact⟩ |
    ⟨hreplaced, hdelete, hact⟩ | ⟨hreplaced, hnot, hact⟩ <;> rw [hact] at houts
  · cases houts
    obtain ⟨hne, encoded, hrenders, hdecoded⟩ := hbytes.rendersRecord hfaithful hwidth
    have hown := ownOut_of_body dialect.encoding hrenders hne
      (written ++ (e.insertedAt start raw).flatten) raw
    rw [hdecoded] at hown
    rw [hreplaced]
    exact .own hnot hinserted hterminated hown.piece fun _ => hown
  · cases houts
    simp only [hreplaced, hdelete, if_true, append_nil]
    exact .deleted rfl hinserted hterminated
  · have hkeeps := (keepsAt_iff edits start).mpr ⟨hreplaced, hnot⟩
    obtain ⟨own, hown, rfl⟩ := Option.map_eq_some_iff.mp houts
    simp only [hreplaced, hnot, Bool.false_eq_true, if_false]
    obtain ⟨hcolumns, hcopied⟩ | ⟨body, term, encoded, tail, hshape, hencodes, hne, htail, rfl⟩ :=
      kept_cases h hends (hwhole hkeeps) hact hown
    · simp only [hcolumns, appendedValues, map_nil, append_nil]
      refine .own rfl hinserted hterminated
        (piece_copied dialect.encoding hends (hwhole hkeeps) hcopied).1 fun hclosed => ?_
      rcases hclosed with hnotKept | hsomeColumns | ⟨body, term, hshape⟩
      · rw [hkeeps] at hnotKept
        cases hnotKept
      · exact absurd hcolumns hsomeColumns
      · exact ownOut_copied hends hshape hcopied
    · -- at least one column is appended, so the body is not empty
      have hbody : contentOf layout raw ++ tail ≠ [] := by
        obtain ⟨rest, rfl⟩ := htail.starts hne
        have hdelimiter := layout.width.unitBytes_length (delimiter_lt_bound layout)
        have hsize := layout.width.size_pos
        rw [ne_eq, ← length_eq_zero_iff, length_append, length_append]
        omega
      have hown := ownOut_of_body dialect.encoding (hshape.rendersRecord.append htail) hbody
        (written ++ (e.insertedAt start raw).flatten) raw
      have hdecoded : decoded dialect.encoding (bodyFields layout body ++ encoded) =
          (decodeFields raw layout dialect.encoding).1 ++ appendedValues edits.appendedColumns
            (decide (headerStartOf dialect layout content = some start)) start := by
        rw [hshape.fields, decoded, map_append]
        exact congrArg _ (decoded_encodes hfaithful hencodes)
      rw [hdecoded] at hown
      exact .own rfl hinserted hterminated hown.piece fun _ => hown

/-- **All records.** -/
theorem emit_pieces (hfaithful : dialect.encoding.Faithful) :
    ∀ (raws : List Bytes) (start : ℕ) (written : Bytes) {outs : List Bytes},
    rawRecords layout (content.drop start) = raws → raws ≠ [] →
    (∀ k raw, IsRecordAt start raws k raw → edits.keepsAt k = true →
      layout.width.size ∣ raw.length) →
    h.emission.emit raws start written = some outs →
    ∃ last lastStart init lastOuts initFields lastFields,
      SourceOut edits dialect layout content start raws written outs last lastStart init lastOuts
        initFields lastFields := by
  intro raws
  induction raws with
  | nil => exact fun start written outs hraw hne => absurd rfl hne
  | cons raw rest ih =>
    intro start written outs hraw _ hwhole hemit
    obtain ⟨-, -, hends, hrest⟩ := piece_of_rawRecords hraw
    obtain ⟨own, hown, hemit⟩ := Option.bind_eq_some_iff.mp hemit
    obtain ⟨following, hfollowing, rfl⟩ := Option.map_eq_some_iff.mp hemit
    have hout := outsOf_recordOut h hfaithful hends
      (hwhole start raw (isRecordAt_cons.mpr (.inl ⟨rfl, rfl⟩))) hown
    cases rest with
    | nil =>
      cases hfollowing
      refine ⟨raw, start, [], own, [], _, by simp, .nil _, fun p hp => (by cases hp), rfl, by simp,
        hends.nil, by simpa using hout, ?_⟩
      simp only [recordsFrom, flatMap_cons, flatMap_nil, append_nil]
      rfl
    | cons next rest =>
      -- a record with another one behind it is closed and has a terminator
      have hx : (next :: rest).flatten ≠ [] := by
        obtain ⟨-, -, hnext, -⟩ := piece_of_rawRecords hrest
        exact fun hnil => hnext.ne_nil (append_eq_nil_iff.mp hnil).1
      obtain ⟨body, term, hshape, hterm⟩ := shaped_of_endsBefore hends (hends.dvd_length hx)
        (.inl hx)
      have hterminator : terminatorOf layout raw ≠ [] := by
        rw [hshape.terminatorOf]
        exact flatMap_unitBytes_ne_nil layout hshape.term (hterm hx)
      have hterminated := hout.terminated (.inr (.inr ⟨body, term, hshape⟩)) hterminator
      obtain ⟨last, lastStart, init, lastOuts, initFields, lastFields, hlast⟩ :=
        ih (start + raw.length) (written ++ own.flatten) hrest (cons_ne_nil _ _)
          (fun k r hr => hwhole k r (isRecordAt_cons.mpr (.inr hr))) hfollowing
      refine ⟨last, lastStart, own ++ init, lastOuts, _ ++ initFields, lastFields, ?_,
        hout.pieces.append hlast.pieces, ?_, ?_, ?_, hlast.single, ?_, ?_⟩
      · rw [hlast.outs_eq, append_assoc]
      · exact forall_mem_append.mpr ⟨hterminated, hlast.terminated⟩
      · rw [getLast?_cons_cons]
        exact hlast.last_eq
      · show _ = start + (raw ++ (next :: rest).flatten).length
        rw [hlast.place, length_append, Nat.add_assoc]
      · rw [flatten_append, ← append_assoc]
        exact hlast.lastOut
      · rw [recordsFrom, flatMap_cons, hlast.fields, append_assoc]
        rfl

/-! ## The start of the output -/

/-- A kept record, written first, starts like the source does there. -/
theorem kept_not_mark {x own : Bytes} (hends : EndsBefore layout raw x)
    (hkeep : (editsAt plan.records start).action = .keep) (hwhole : layout.width.size ∣ raw.length)
    (hraw : NotMark dialect.encoding raw) (hown : h.emission.kept [] start raw = some own) :
    NotMark dialect.encoding own := by
  intro hmark
  have hwidth := (forDialect_ok h.forDialect).1
  obtain ⟨-, hcopied⟩ | ⟨body, term, encoded, tail, hshape, -, hne, htail, rfl⟩ :=
    kept_cases h hends hwhole hkeep hown
  · rw [copied_of_not_return (endsWithReturn_nil _)] at hcopied
    exact Option.some.inj hcopied ▸ hraw hmark
  · -- the body of the record is followed by a delimiter
    obtain ⟨rest, rfl⟩ := htail.starts hne
    have hbody : ¬ byteOrderMark dialect.encoding <+: contentOf layout raw := by
      intro hstarts
      refine hraw hmark (hstarts.trans ?_)
      exact ⟨_, contentOf_append_terminatorOf layout raw⟩
    have hcontent := hshape.rendersRecord.whole
    rw [hwidth] at hcontent
    rw [append_assoc, append_assoc, hwidth]
    exact not_mark_append_special hcontent hbody (isSpecial_delimiter h.forDialect) hmark _

theorem rendered_not_mark {fields : List Text}
    (hbytes : Rendered ⟨layout, dialect.encoding⟩ fields bytes) (more : Bytes) :
    NotMark dialect.encoding (bytes ++ more) := by
  obtain ⟨location, hrecord⟩ := hbytes
  have hstart := record_start (forDialect_ok h.forDialect).1 hrecord
  exact fun hmark => record_not_mark h.forDialect hstart hmark more

/-- What is inserted before a record comes first. -/
theorem inserted_not_mark {outs : List Bytes}
    (hbefore : (editsAt plan.records start).insertedBefore ≠ [])
    (houts : h.emission.outsOf [] start raw = some outs) (following : List Bytes) :
    ∀ p ∈ (outs ++ following).head?, NotMark dialect.encoding p := by
  obtain ⟨inserted, others, hinserted⟩ := exists_cons_of_ne_nil hbefore
  have hrecords := h.planned.inserted start
  have houtput := insertedAt_eq h start raw
  rw [hinserted] at hrecords houtput
  obtain ⟨fields, texts, hfields, -, -⟩ := forall₂_cons_right_iff.mp hrecords
  obtain ⟨more, rfl⟩ : ∃ more, outs = h.emission.insertedAt start raw ++ more := by
    unfold Emission.outsOf at houts
    split at houts
    · obtain ⟨kept, -, rfl⟩ := Option.map_eq_some_iff.mp houts
      exact ⟨_, rfl⟩
    · exact ⟨_, (Option.some.inj houts).symm⟩
    · exact ⟨[], by rw [append_nil, Option.some.inj houts]⟩
  intro p hp
  rw [houtput] at hp
  cases hp
  exact rendered_not_mark h hfields _

/-- **The output does not start like the mark**, if the first record copied
does not. -/
theorem emit_not_mark :
    ∀ (raws : List Bytes) (start fuel : ℕ) (entries : List (ℕ × RecordPlan)) {outs : List Bytes},
    rawRecords layout (content.drop start) = raws →
    h.emission.Follows start raws entries →
    (∀ k raw, IsRecordAt start raws k raw → edits.keepsAt k = true →
      layout.width.size ∣ raw.length) →
    entries.length < fuel →
    (∀ position, Output.firstCopied checked fuel start = some position →
      position < content.length → NotMark dialect.encoding (content.drop position)) →
    h.emission.emit raws start [] = some outs → ∀ p ∈ outs.head?, NotMark dialect.encoding p := by
  intro raws
  induction raws with
  | nil =>
    intro start fuel entries outs _ _ _ _ _ hemit p hp
    cases hemit
    cases hp
  | cons raw rest ih =>
    intro start fuel entries outs hraw hfollows hwhole hfuel hfirst hemit
    obtain ⟨fuel, rfl⟩ : ∃ n, fuel = n + 1 := ⟨fuel - 1, by omega⟩
    obtain ⟨-, -, hends, hrest⟩ := piece_of_rawRecords hraw
    obtain ⟨own, hown, hemit⟩ := Option.bind_eq_some_iff.mp hemit
    obtain ⟨following, hfollowing, rfl⟩ := Option.map_eq_some_iff.mp hemit
    by_cases hbefore : (editsAt plan.records start).insertedBefore = []
    · have hedits := editsAt_checked h.terminators start
      obtain ⟨hkept, hdeleted⟩ := firstCopied_eq fuel (hedits ▸ hbefore)
      rw [hedits] at hkept hdeleted
      unfold Emission.outsOf at hown
      rw [actionAt_eq h, insertedAt_eq h, hbefore, map_nil] at hown
      rcases h.planned.action_cases start with ⟨fields, bytes, -, -, hrecord, hact⟩ |
        ⟨-, -, hact⟩ | ⟨hreplaced, hnot, hact⟩
      · rw [hact] at hown
        cases hown
        intro p hp
        cases hp
        exact rendered_not_mark h hrecord _
      · rw [hact] at hown
        cases hown
        -- the record leaves nothing, so the next one decides
        obtain ⟨record, hget, hnext⟩ := hdeleted hact
        obtain ⟨later, rfl, hfollows', hfinish, -⟩ := hfollows.head hends.ne_nil hget
        rw [hfinish] at hnext
        refine ih (start + raw.length) fuel later hrest hfollows'
          (fun k r hr => hwhole k r (isRecordAt_cons.mpr (.inr hr))) ?_ ?_ hfollowing
        · rw [length_cons] at hfuel
          omega
        · rwa [hnext] at hfirst
      · rw [hact] at hown
        obtain ⟨kept, hkept', rfl⟩ := Option.map_eq_some_iff.mp hown
        have hbytes := (endsBefore_of_rawRecords hraw).1
        have hlt : start < content.length := by
          by_contra hge
          rw [drop_eq_nil_of_le (Nat.le_of_not_lt hge)] at hraw
          cases hraw
        have hrawMark : NotMark dialect.encoding raw := fun hmark hstarts =>
          hfirst start (hkept hact) hlt hmark (hstarts.trans ⟨_, hbytes.symm⟩)
        intro p hp
        cases hp
        exact kept_not_mark h hends hact
          (hwhole start raw (isRecordAt_cons.mpr (.inl ⟨rfl, rfl⟩))
            ((keepsAt_iff edits start).mpr ⟨hreplaced, hnot⟩)) hrawMark hkept'
    · exact inserted_not_mark h hbefore hown following

/-! ## The final record -/

variable (hnames : edits.NamesRecords dialect layout content)
include hnames

/-- `final_record_is` asks about the last record. -/
theorem finalRecordIs_eq (hlast : (allRaw dialect layout content).getLast? = some last)
    (hplace : lastStart + last.length = content.length) {isSought : Action → Bool}
    (hsought : isSought .keep = false) :
    plan.finalRecordIs ⟨markLength dialect.encoding content, content.length⟩ isSought =
      isSought (editsAt plan.records lastStart).action := by
  have htotal := mark_add_flatten dialect layout content
  have hne : ∀ r ∈ allRaw dialect layout content, r ≠ [] := fun r hr => rawRecords_ne_nil hr
  unfold Plan.finalRecordIs
  rw [Bool.eq_iff_iff, any_eq_true]
  constructor
  · rintro ⟨⟨k, record⟩, hmem, hentry⟩
    rw [Bool.and_eq_true, decide_eq_true_eq] at hentry
    rw [plan.records.mem_entries_iff] at hmem
    obtain ⟨raw, hraw, hfinish⟩ := hnames.isRecordAt (h.planned.named k record hmem)
    dsimp only at hraw hfinish hentry
    obtain ⟨rfl, -⟩ := hraw.eq_last hne hlast (hplace.trans htotal.symm) (by omega)
    have haction : (editsAt plan.records k).action = record.action := by
      unfold editsAt
      rw [hmem]
      rfl
    rw [haction]
    exact hentry.2
  · intro hfinal
    obtain ⟨record, hget, haction⟩ : ∃ record, plan.records.get? lastStart = some record ∧
        isSought record.action = true := by
      unfold editsAt at hfinal
      cases hget : plan.records.get? lastStart with
      | none =>
        rw [hget] at hfinal
        exact absurd (hsought.symm.trans hfinal) Bool.false_ne_true
      | some record =>
        rw [hget] at hfinal
        exact ⟨record, rfl, hfinal⟩
    refine ⟨(lastStart, record), (plan.records.mem_entries_iff _ _).mpr hget, ?_⟩
    rw [Bool.and_eq_true, decide_eq_true_eq]
    obtain ⟨raw, hraw, hfinish⟩ := hnames.isRecordAt (h.planned.named lastStart record hget)
    dsimp only at hraw hfinish ⊢
    obtain rfl := hraw.unique hne (isRecordAt_last hlast (hplace.trans htotal.symm))
    exact ⟨by omega, haction⟩

theorem finalRecordDeleted_eq (hlast : (allRaw dialect layout content).getLast? = some last)
    (hplace : lastStart + last.length = content.length) :
    plan.finalRecordIs ⟨markLength dialect.encoding content, content.length⟩
      (fun action => decide (action = .delete)) = edits.deletesAt lastStart := by
  rw [finalRecordIs_eq h hnames hlast hplace (by decide)]
  rcases h.planned.action_cases lastStart with ⟨_, _, -, hdeleted, -, haction⟩ |
    ⟨-, hdeleted, haction⟩ | ⟨-, hdeleted, haction⟩
  all_goals simp [hdeleted, haction]

/-- With edits, every record that is kept is made of whole units. -/
theorem kept_whole (hedits : ¬ plan.IsEmpty)
    (hraw : IsRecordAt (markLength dialect.encoding content) (allRaw dialect layout content) k raw)
    (hkeeps : edits.keepsAt k = true) : layout.width.size ∣ raw.length := by
  have htotal := mark_add_flatten dialect layout content
  obtain ⟨before, after, hrecords, hk⟩ := hraw
  unfold allRaw at htotal hrecords
  cases after with
  | cons next after =>
    -- a record with another one behind it
    have hdrop := rawRecords_drop layout
      (content.drop (markLength dialect.encoding content)) before.length
    rw [hrecords, take_left, drop_left] at hdrop
    have hends := (endsBefore_of_rawRecords hdrop).2.1
    have hnext : next ≠ [] := rawRecords_ne_nil (by rw [hrecords]; simp)
    exact hends.dvd_length fun hnil => hnext (append_eq_nil_iff.mp hnil).1
  | nil =>
    have hlast : (allRaw dialect layout content).getLast? = some raw := by
      rw [allRaw, hrecords, getLast?_concat]
    have hbefore := dvd_length_before hrecords
    rw [hrecords, flatten_append, flatten_singleton, length_append] at htotal
    by_cases hmod : (content.length - markLength dialect.encoding content) % layout.width.size = 0
    · have hdata := Nat.dvd_of_mod_eq_zero hmod
      rw [← htotal, Nat.add_sub_cancel_left] at hdata
      exact (Nat.dvd_add_right hbefore).mp hdata
    · have hfinal := (h.whole hmod).resolve_left hedits
      have hplace : k + raw.length = content.length := by omega
      rw [finalRecordIs_eq h hnames hlast hplace (by decide), decide_eq_true_eq] at hfinal
      obtain ⟨hreplaced, hdeleted⟩ := (keepsAt_iff edits k).mp hkeeps
      exact absurd (h.planned.kept k hreplaced hdeleted) hfinal

/-! ## The whole output -/

omit hnames in
/-- Records inserted at the end, behind records that are all terminated. -/
theorem pieces_atEnd
    (hfaithful : dialect.encoding.Faithful) {base : List Bytes} {fields : List (List Text)}
    (hbase : Pieces layout dialect.encoding written base fields)
    (hterminated : ∀ p ∈ base, Terminated layout p) {terminator : Bytes}
    (hterminator : edits.insertionsAtEnd ≠ [] → IsTerminator layout terminator) :
    Pieces layout dialect.encoding written (base ++ plan.insertedAtEnd.map (· ++ terminator))
      (fields ++ edits.insertionsAtEnd.map writtenFields) ∧
    (∀ p ∈ (base ++ plan.insertedAtEnd.map (· ++ terminator)).dropLast, Terminated layout p) ∧
    ((∀ p ∈ base.head?, NotMark dialect.encoding p) →
      ∀ p ∈ (base ++ plan.insertedAtEnd.map (· ++ terminator)).head?,
        NotMark dialect.encoding p) := by
  have hwidth := (forDialect_ok h.forDialect).1
  obtain ⟨hpieces, hall⟩ := pieces_inserted terminator hfaithful hwidth (written ++ base.flatten)
    h.planned.atEnd hterminator
  refine ⟨hbase.append hpieces, fun p hp => ?_, fun hhead p hp => ?_⟩
  · exact forall_mem_append.mpr ⟨hterminated, hall⟩ p ((dropLast_sublist _).subset hp)
  · cases base with
    | cons q base => exact hhead p hp
    | nil =>
      -- the first inserted record comes first
      cases hinserted : plan.insertedAtEnd with rw [hinserted] at hp
      | nil =>
        cases hp
      | cons bytes others =>
        cases hp
        have hatEnd := h.planned.atEnd
        rw [hinserted] at hatEnd
        obtain ⟨fields, texts, ⟨location, hrecord⟩, -, -⟩ := forall₂_cons_right_iff.mp hatEnd
        exact fun hmark => record_not_mark h.forDialect (record_start hwidth hrecord) hmark _

omit hnames in
theorem insertedAtEnd_eq_nil_iff : plan.insertedAtEnd = [] ↔ edits.insertionsAtEnd = [] := by
  rw [← length_eq_zero_iff, ← length_eq_zero_iff, h.planned.atEnd.length_eq]

omit hnames in
theorem isTerminator_fallback_atEnd (hne : edits.insertionsAtEnd ≠ []) :
    IsTerminator layout h.emission.fallback := by
  have hinsertions : edits.insertions ≠ [] := by
    intro hnil
    rw [EditSet.insertionsAtEnd, hnil] at hne
    exact hne rfl
  rw [fallback_eq h hinsertions]
  exact isTerminator_fallback layout _

omit hnames in
/-- A source without records: the output is what is inserted at the end. -/
theorem exists_pieces_of_no_records (hfaithful : dialect.encoding.Faithful)
    (hraws : allRaw dialect layout content = []) :
    ∃ pieces, OutputPieces edits dialect layout content output allOuts pieces := by
  have hemitted := h.emitted
  rw [hraws] at hemitted
  cases hemitted
  have hdata : content.drop (markLength dialect.encoding content) = [] := by
    have hflatten :=
      rawRecords_flatten layout (content.drop (markLength dialect.encoding content))
    rw [show rawRecords layout _ = [] from hraws] at hflatten
    exact hflatten.symm
  obtain ⟨hpieces, hterm, hhead⟩ := pieces_atEnd h hfaithful
    (.nil (content.take (markLength dialect.encoding content))) (fun p hp => by cases hp)
    (isTerminator_fallback_atEnd h)
  refine ⟨_, ⟨?_, ?_, hterm, hhead⟩⟩
  · refine h.output.trans ?_
    rw [atEndBytes, hdata, terminatorOf_nil]
    cases plan.insertedAtEnd <;> simp
  · unfold EditSet.editedRecords allRecords
    rw [hraws]
    exact hpieces

section LastRecord

variable {init lastOuts : List Bytes} {initFields lastFields : List (List Text)}
  (hout : SourceOut edits dialect layout content (markLength dialect.encoding content)
    (allRaw dialect layout content) (content.take (markLength dialect.encoding content)) allOuts
    last lastStart init lastOuts initFields lastFields)
include hout

omit h hnames in
theorem SourceOut.chain : Pieces layout dialect.encoding
    (content.take (markLength dialect.encoding content)) allOuts (initFields ++ lastFields) :=
  hout.outs_eq ▸ hout.pieces.append hout.lastOut.pieces

omit h hnames in
theorem SourceOut.editedRecords_eq : edits.editedRecords dialect layout content =
    (initFields ++ lastFields) ++ edits.insertionsAtEnd.map writtenFields := by
  unfold EditSet.editedRecords allRecords
  rw [hout.fields]

omit h hnames in
theorem SourceOut.lastPlace : lastStart + last.length = content.length := by
  rw [hout.place, mark_add_flatten]

omit hnames in
/-- Nothing is inserted at the end: the pieces are those of the source records. -/
theorem outputPieces_of_none (hnone : plan.insertedAtEnd = []) :
    OutputPieces edits dialect layout content output allOuts allOuts where
  output_eq := by
    rw [h.output, atEndBytes, hnone]
    simp
  chain := by
    rw [hout.editedRecords_eq, (insertedAtEnd_eq_nil_iff h).mp hnone, map_nil, append_nil]
    exact hout.chain
  terminated := by
    intro p hp
    rw [hout.outs_eq] at hp
    by_cases hlast : lastOuts = []
    · rw [hlast, append_nil] at hp
      exact hout.terminated p ((dropLast_sublist _).subset hp)
    · rw [dropLast_append_of_ne_nil hlast] at hp
      exact forall_mem_append.mpr ⟨hout.terminated, hout.lastOut.dropLast⟩ p hp
  notMark := id

/-- With insertions at the end the final record is closed, or it would swallow
what is inserted. -/
theorem closedAt_last (hedits : ¬ plan.IsEmpty)
    (hswallowed : ¬ edits.Swallowed dialect layout content)
    (hinserts : edits.insertionsAtEnd ≠ []) : edits.ClosedAt layout lastStart last := by
  by_cases hkeeps : edits.keepsAt lastStart = true
  · by_cases hcolumns : edits.appendedColumns = []
    · have hplace := hout.lastPlace
      have hinside : endsInsideQuotes last layout = false := by
        by_contra hinside
        refine hswallowed ⟨hcolumns, hinserts, last, hout.last_eq,
          Bool.not_eq_false _ ▸ hinside, ?_⟩
        rwa [show content.length - last.length = lastStart by omega]
      obtain ⟨body, term, hshape, -⟩ := shaped_of_endsBefore hout.single
        (kept_whole h hnames hedits (isRecordAt_last hout.last_eq hout.place) hkeeps)
        (Or.inr hinside)
      exact Or.inr (Or.inr ⟨body, term, hshape⟩)
    · exact Or.inr (Or.inl hcolumns)
  · exact Or.inl (Bool.eq_false_iff.mpr hkeeps)

/-- The output with insertions at the end, by what the final record ends with. -/
theorem output_of_insertions (hsome : plan.insertedAtEnd ≠ []) :
    output = content.take (markLength dialect.encoding content) ++ allOuts.flatten ++
      if terminatorOf layout last = [] then
        (if edits.deletesAt lastStart then [] else h.emission.fallback) ++
          (plan.insertedAtEnd.map (· ++ h.emission.fallback)).flatten
      else (plan.insertedAtEnd.map (· ++ terminatorOf layout last)).flatten := by
  have hdata : content.drop (markLength dialect.encoding content) ≠ [] := by
    intro hnil
    have hlast := hout.last_eq
    rw [allRaw, hnil] at hlast
    cases hlast
  refine h.output.trans ?_
  rw [atEndBytes, terminatorOf_last hout.last_eq,
    finalRecordDeleted_eq h hnames hout.last_eq hout.lastPlace]
  cases edits.deletesAt lastStart <;> simp [hsome, hdata]

/-- The terminator of the final record is taken over. -/
theorem exists_pieces_of_terminated (hfaithful : dialect.encoding.Faithful)
    (hsome : plan.insertedAtEnd ≠ []) (hclosed : edits.ClosedAt layout lastStart last)
    (hterm : terminatorOf layout last ≠ []) :
    ∃ pieces, OutputPieces edits dialect layout content output allOuts pieces := by
  have hall : ∀ p ∈ allOuts, Terminated layout p := hout.outs_eq ▸
    forall_mem_append.mpr ⟨hout.terminated, hout.lastOut.terminated hclosed hterm⟩
  obtain ⟨hpieces, hdrop, hhead⟩ := pieces_atEnd h hfaithful hout.chain hall
    fun _ => (terminatorOf_cases last).resolve_left hterm
  refine ⟨_, ⟨?_, by rw [hout.editedRecords_eq]; exact hpieces, hdrop, hhead⟩⟩
  rw [output_of_insertions h hnames hout hsome, if_neg hterm, flatten_append, append_assoc]

/-- The final record has no terminator: it is deleted, or it gets the line break
it lacks. -/
theorem exists_pieces_of_unterminated (hfaithful : dialect.encoding.Faithful)
    (hsome : plan.insertedAtEnd ≠ []) (hclosed : edits.ClosedAt layout lastStart last)
    (hterm : terminatorOf layout last = []) :
    ∃ pieces, OutputPieces edits dialect layout content output allOuts pieces := by
  have hfallback := isTerminator_fallback_atEnd h
  have houtput := output_of_insertions h hnames hout hsome
  rw [if_pos hterm] at houtput
  rcases hout.lastOut with ⟨hdelete, -, hlastOuts⟩ |
    @⟨inserted, beforeFields, own, ownFields, hkept, hinserted, hterminated, -, hown⟩
  · have hall : ∀ p ∈ allOuts, Terminated layout p :=
      hout.outs_eq ▸ forall_mem_append.mpr ⟨hout.terminated, hlastOuts⟩
    obtain ⟨hpieces, hdrop, hhead⟩ := pieces_atEnd h hfaithful hout.chain hall hfallback
    refine ⟨_, ⟨?_, by rw [hout.editedRecords_eq]; exact hpieces, hdrop, hhead⟩⟩
    refine houtput.trans ?_
    rw [hdelete, if_pos rfl, nil_append, flatten_append, append_assoc]
  · have hbreak := hfallback (mt (insertedAtEnd_eq_nil_iff h).mpr hsome)
    obtain ⟨hextended, hextendedTerm⟩ := (hown hclosed).extended hterm _ hbreak
    have hbase := (hout.pieces.append hinserted).append (.cons (by
      rw [flatten_append, ← append_assoc]
      exact hextended) (.nil _))
    have hall : ∀ p ∈ (init ++ inserted) ++ [own ++ h.emission.fallback], Terminated layout p :=
      forall_mem_append.mpr ⟨forall_mem_append.mpr ⟨hout.terminated, hterminated⟩,
        forall_mem_singleton.mpr hextendedTerm⟩
    obtain ⟨hpieces, hdrop, hhead⟩ := pieces_atEnd h hfaithful hbase hall hfallback
    refine ⟨_, ⟨?_, ?_, hdrop, fun hnotMark => hhead fun p hp => ?_⟩⟩
    · refine houtput.trans ?_
      rw [hkept, congrArg List.flatten hout.outs_eq]
      simp
    · rw [hout.editedRecords_eq, ← append_assoc]
      exact hpieces
    · -- the first piece is the extended record only when nothing stands before it
      rw [hout.outs_eq, ← append_assoc] at hnotMark
      cases hfirst : init ++ inserted with rw [hfirst] at hp hnotMark
      | cons q others =>
        exact hnotMark p hp
      | nil =>
        cases hp
        have := (hnotMark own rfl).append_terminator (forDialect_ok h.forDialect).1
          (hown hclosed).piece.whole hbreak []
        rwa [append_nil] at this

end LastRecord

theorem exists_pieces (hfaithful : dialect.encoding.Faithful)
    (hedits : ¬ plan.IsEmpty) (hswallowed : ¬ edits.Swallowed dialect layout content) :
    ∃ pieces, OutputPieces edits dialect layout content output allOuts pieces := by
  by_cases hraws : allRaw dialect layout content = []
  · exact exists_pieces_of_no_records h hfaithful hraws
  · obtain ⟨last, lastStart, init, lastOuts, initFields, lastFields, hout⟩ :=
      emit_pieces h hfaithful (allRaw dialect layout content)
        (markLength dialect.encoding content) _ rfl hraws
        (fun k raw hraw hkeeps => kept_whole h hnames hedits hraw hkeeps) h.emitted
    by_cases hnone : plan.insertedAtEnd = []
    · exact ⟨allOuts, outputPieces_of_none h hout hnone⟩
    · have hclosed := closedAt_last h hnames hout hedits hswallowed
        (mt (insertedAtEnd_eq_nil_iff h).mpr hnone)
      by_cases hterm : terminatorOf layout last = []
      · exact exists_pieces_of_unterminated h hnames hout hfaithful hnone hclosed hterm
      · exact exists_pieces_of_terminated h hnames hout hfaithful hnone hclosed hterm

omit hnames in
/-- Without edits the source is copied. -/
theorem output_of_isEmpty (hempty : plan.IsEmpty) :
    output = content ∧ edits.editedRecords dialect layout content =
      (allRecords dialect layout content).map Record.fields := by
  obtain ⟨hentries, hatEnd, happended⟩ := hempty
  have hnone : ∀ k, plan.records.get? k = none := by
    intro k
    cases hget : plan.records.get? k with
    | none => rfl
    | some record =>
      have := (plan.records.mem_entries_iff k record).mpr hget
      rw [hentries] at this
      cases this
  have hedits : ∀ k, editsAt plan.records k = .none := by
    intro k
    unfold editsAt
    rw [hnone k]
    rfl
  constructor
  · -- the only range is the whole source
    have hfollows : h.emission.Follows
        (markLength dialect.encoding content) (allRaw dialect layout content) [] := by
      refine ⟨.nil, fun k record hmem => absurd hmem not_mem_nil, fun k _ record => ?_⟩
      have hget : checked.get? k = none := by rw [h.terminators k, hnone k]; rfl
      show checked.get? k = some record ↔ _
      rw [hget]
      simp
    have hraw : rawRecords layout (content.drop (markLength dialect.encoding content)) =
        allRaw dialect layout content := rfl
    have hranges := rangesOut_eq_emit h.emission
      happended _ _ (content.take (markLength dialect.encoding content)) [] hraw hfollows
    have hcopied : copied layout (content.take (markLength dialect.encoding content))
        (piece content (markLength dialect.encoding content) content.length) =
        some (content.drop (markLength dialect.encoding content)) := by
      rw [copied_of_not_return (mark_not_return h.forDialect), piece,
        take_of_length_le (length_drop ..).le]
    rw [h.emitted, rangesOut, show h.emission.layout = layout from rfl, hcopied] at hranges
    rw [h.output, hatEnd, ← Option.some.inj hranges]
    simp [atEndBytes]
  · have hcolumns := h.planned.columns.mpr happended
    have hinsertedAtEnd : edits.insertionsAtEnd = [] := by
      have := h.planned.atEnd.length_eq
      rw [hatEnd] at this
      exact length_eq_zero_iff.mp this
    have hsame : ∀ start fields,
        edits.editedAt (headerStartOf dialect layout content) start fields = [fields] := by
      intro start fields
      have hinserted : edits.insertionsBefore start = [] := by
        have := (h.planned.inserted start).length_eq
        rw [hedits start] at this
        exact length_eq_zero_iff.mp this
      obtain ⟨hreplaced, hdeleted⟩ := h.planned.keeps (k := start) (by rw [hedits start]; rfl)
      simp [EditSet.editedAt, hinserted, hreplaced, hdeleted, hcolumns, appendedValues]
    unfold EditSet.editedRecords
    rw [hinsertedAtEnd, map_nil, append_nil]
    simp only [hsame]
    exact flatMap_pure_eq_map _ _

/-- The mark in front of the output is the one in front of the source. -/
theorem markLength_output {pieces : List Bytes} (hedits : ¬ plan.IsEmpty)
    (hpieces : OutputPieces edits dialect layout content output allOuts pieces) :
    markLength dialect.encoding output = markLength dialect.encoding content := by
  have hwidth := (forDialect_ok h.forDialect).1
  by_cases hmark : byteOrderMark dialect.encoding = []
  · simp [markLength, hmark]
  by_cases hstarts : byteOrderMark dialect.encoding <+: content
  · have hm : markLength dialect.encoding content = (byteOrderMark dialect.encoding).length := by
      simp [markLength, hmark, isPrefixOf_iff_prefix, hstarts]
    have hout : byteOrderMark dialect.encoding <+: output := by
      rw [hpieces.output_eq, hm, ← prefix_iff_eq_take.mp hstarts]
      exact prefix_append _ _
    rw [hm]
    simp [markLength, hmark, isPrefixOf_iff_prefix, hout]
  · have hm : markLength dialect.encoding content = 0 := by
      simp [markLength, hmark, isPrefixOf_iff_prefix, hstarts]
    have houtput := hpieces.output_eq
    rw [hm, take_zero, nil_append] at houtput
    have hemitted := h.emitted
    rw [hm, take_zero] at hemitted
    have hfollows := follows_of_checked h.planned hnames h.terminators
    rw [hm] at hfollows
    have hhead := emit_not_mark h _ 0 (checked.entries.length + 1) checked.entries
      (by rw [allRaw, hm]) hfollows
      (fun k raw hraw hkeeps => kept_whole h hnames hedits (by rwa [hm]) hkeeps)
      (Nat.lt_succ_self _) (fun position hfirst hlt => ?_) hemitted
    · have hnot := hpieces.chain.notMark hwidth hpieces.terminated
        (hpieces.notMark hhead) hmark
      rw [← houtput] at hnot
      rw [hm]
      simp [markLength, hmark, isPrefixOf_iff_prefix, hnot]
    · -- the first record copied is at the start, or was checked
      by_cases hzero : position = 0
      · exact fun _ => by rwa [hzero, drop_zero]
      · intro _ hstarts
        have hfirstOk := h.first hm hmark position hfirst hzero hlt
        refine hfirstOk ?_
        obtain ⟨rest, hrest⟩ := hstarts
        have hlength := congrArg List.length hrest
        rw [length_append, length_drop] at hlength
        dsimp only
        rw [Nat.min_eq_left (by omega), piece, Nat.add_sub_cancel_left, ← hrest, take_left]

/-- The records of the output are the edited records. -/
theorem saved_reads_edited (hfaithful : dialect.encoding.Faithful)
    (hswallowed : ¬ edits.Swallowed dialect layout content) :
    (allRecords dialect layout output).map Record.fields =
      edits.editedRecords dialect layout content := by
  by_cases hedits : plan.IsEmpty
  · obtain ⟨rfl, hrecords⟩ := output_of_isEmpty h hedits
    exact hrecords.symm
  · obtain ⟨pieces, hpieces⟩ := exists_pieces h hnames hfaithful hedits hswallowed
    have hmark := markLength_output h hnames hedits hpieces
    have hdrop : output.drop (markLength dialect.encoding output) = pieces.flatten := by
      have hlength : (content.take (markLength dialect.encoding content)).length =
          markLength dialect.encoding content :=
        length_take_of_le (markLength_le dialect.encoding content)
      rw [hmark, hpieces.output_eq]
      exact drop_left' hlength
    have hwhole : layout.width.size ∣
        (content.take (markLength dialect.encoding content)).length := by
      rw [length_take_of_le (markLength_le dialect.encoding content),
        (forDialect_ok h.forDialect).1]
      unfold markLength
      split_ifs with hstarts
      · cases hkind : dialect.encoding.kind <;>
          simp [byteOrderMark, Encoding.width, hkind, UnitWidth.size]
      · exact Nat.dvd_zero _
    have hraw : allRaw dialect layout output = pieces := by
      rw [allRaw, hdrop]
      exact hpieces.chain.rawRecords hwhole hpieces.terminated
    rw [allRecords, recordsFrom_fields, hraw, hpieces.chain.fields_eq]

omit hnames

end Records

/-! ## Reading the saved file -/

/-- A reader opened over `content` has the first of these records as its header
if the dialect has one, and pages through the others. -/
def ReadsAs (dialect : Dialect) (content : Bytes) (records : List (List Text)) : Prop :=
  ∀ (source : Source) (options : ReaderOptions) (r : PagedReader), source.content = content →
    openReader source dialect options = .ok r →
    ∃ data, (r.header.map Record.fields).toList ++ data = records ∧
      (dialect.hasHeader = false → r.header = none) ∧
      ∀ page result t, readPage page r = .ok result t →
        result.records.map Record.fields = (data.drop (page * options.pageSize)).take options.pageSize

variable {dialect : Dialect} {layout : Layout}

theorem readsAs_allRecords (hlayout : Layout.forDialect dialect = .ok layout) (content : Bytes) :
    ReadsAs dialect content ((allRecords dialect layout content).map Record.fields) := by
  intro source options r hcontent hopen
  obtain ⟨hindexed, hsame, rfl, hopened, rfl⟩ := PagedReader.indexed_open hopen
  obtain rfl : layout = r.layout := Except.ok.inj (hlayout.symm.trans hopened)
  rw [hcontent] at hsame
  refine ⟨(dataRecords r.dialect r.layout content).map Record.fields, ?_, ?_, ?_⟩
  · rw [hindexed.header, hsame, ← header_append_data, map_append]
    cases headerRecord r.dialect r.layout content <;> rfl
  · intro hheader
    rw [hindexed.header, headerRecord, headerRaw, hheader]
    rfl
  · intro page result t hread
    obtain ⟨-, -, rfl⟩ := (PagedReader.readPage_ensures hindexed page).ok hread
    rw [← map_drop, ← map_take, ← hsame]
    rfl

/-- **A saved file reads back as the edited records.** -/
theorem writeEdited_reads_edited {dialect : Dialect} {layout : Layout} {edits : EditSet}
    {windowSize : ℕ} {hwindow : 0 < windowSize} {source : Source} {refuses : ℕ → Bool} {t : Output}
    (hlayout : Layout.forDialect dialect = .ok layout) (hfaithful : dialect.encoding.Faithful)
    (hnames : edits.NamesRecords dialect layout source.content)
    (hswallowed : ¬ edits.Swallowed dialect layout source.content)
    (hwrite : writeEdited dialect edits windowSize hwindow (Output.fresh source refuses) =
      .ok () t) :
    (allRecords dialect layout t.sink.bytes).map Record.fields =
        edits.editedRecords dialect layout source.content ∧
      ReadsAs dialect t.sink.bytes (edits.editedRecords dialect layout source.content) := by
  obtain ⟨plan, checked, outs, hsaved⟩ :=
    (writeEdited_ensures hwindow source refuses hlayout hnames).ok hwrite
  have hreads := saved_reads_edited hsaved hnames hfaithful hswallowed
  exact ⟨hreads, hreads ▸ readsAs_allRecords hlayout t.sink.bytes⟩

theorem latin1_faithful : latin1.Faithful := by
  have hencode : ∀ (text : Text) (position : ℕ) (bytes : Bytes),
      encodeWith latin1.encodeChar position text = .ok bytes → (latin1.decode bytes).1 = text := by
    intro text
    induction text with intro position bytes h
    | nil =>
      cases h
      rfl
    | cons c rest ih =>
      unfold encodeWith at h
      by_cases hc : c.toNat < 256
      · rw [show latin1.encodeChar c = some [UInt8.ofNat c.toNat] from if_pos hc] at h
        cases hrest : encodeWith latin1.encodeChar (position + c.utf8Size) rest with
        | error e =>
          rw [hrest] at h
          cases h
        | ok encoded =>
          rw [hrest] at h
          cases h
          show Char.ofNat (UInt8.ofNat c.toNat).toNat :: (latin1.decode encoded).1 = c :: rest
          rw [ih _ _ hrest, UInt8.toNat_ofNat_of_lt' hc, Char.ofNat_toNat]
      · rw [show latin1.encodeChar c = none from if_neg hc] at h
        cases h
  exact fun text bytes h => hencode text 0 bytes h

/-- Header `h`, then the records `1`, `2` and `3`, the last one unterminated. -/
def threeRecords : Source :=
  plainSource [104, 10, 49, 13, 50, 10, 51] (by decide)

/-- The record `1` is replaced, `2` is deleted, `z` is inserted at the end. -/
def mixedEdits : EditSet where
  sourceLength := 7
  replacements := [⟨⟨2, 4⟩, [['x', ',', 'y']]⟩]
  deletions := [⟨4, 6⟩]
  insertions := [⟨.atEnd, [['z']]⟩]
  appendedColumns := []

theorem mixedEdits_reads_edited : ∃ layout t, Layout.forDialect commaDialect = .ok layout ∧
      writeEdited commaDialect mixedEdits 4 (by decide)
        (Output.fresh threeRecords fun _ => false) = .ok () t ∧
      ReadsAs commaDialect t.sink.bytes [[['h']], [['x', ',', 'y']], [['3']], [['z']]] := by
  have heval : ∃ layout ∈ (Layout.forDialect commaDialect).toOption,
      ∃ run ∈ outcome (writeEdited commaDialect mixedEdits 4 (by decide))
        (fresh threeRecords fun _ => false),
      mixedEdits.NamesRecords commaDialect layout threeRecords.content ∧
      ¬ mixedEdits.Swallowed commaDialect layout threeRecords.content ∧
      mixedEdits.editedRecords commaDialect layout threeRecords.content =
        [[['h']], [['x', ',', 'y']], [['3']], [['z']]] := by
    unfold EditSet.NamesRecords
    decide +kernel
  obtain ⟨layout, hlayout, ⟨⟨⟩, t⟩, hrun, hnames, hswallowed, hedited⟩ := heval
  have hlayout := toOption_eq_some.mp hlayout
  have hrun := outcome_eq_some.mp hrun
  exact ⟨layout, t, hlayout, hrun,
    hedited ▸ (writeEdited_reads_edited hlayout latin1_faithful hnames hswallowed hrun).2⟩

/-- One record that ends inside quotes, `"abc`. -/
def unclosedQuote : Source := plainSource [34, 97, 98, 99] (by decide)

/-- What is saved for it: `"abc`, a line feed, `x`, a line feed. -/
def savedBehindQuote : Source :=
  plainSource [34, 97, 98, 99, 10, 120, 10] (by decide)

/-- The record `x` is inserted at the end. -/
def insertAtEnd : EditSet := ⟨4, [], [], [⟨.atEnd, [['x']]⟩], []⟩

/-- The comma dialect without a header. -/
def headerless : Dialect := { commaDialect with hasHeader := false }

/-- The saved file reads as one record, with the inserted one inside its
quotes. -/
theorem inserted_behind_unclosed_quote :
    ∃ layout t, Layout.forDialect headerless = .ok layout ∧ headerless.encoding.Faithful ∧
      insertAtEnd.NamesRecords headerless layout unclosedQuote.content ∧
      writeEdited headerless insertAtEnd 4 (by decide)
        (Output.fresh unclosedQuote fun _ => false) = .ok () t ∧
      insertAtEnd.editedRecords headerless layout unclosedQuote.content =
        [[['a', 'b', 'c']], [['x']]] ∧
      ¬ ReadsAs headerless t.sink.bytes [[['a', 'b', 'c']], [['x']]] := by
  have hwritten : ∃ layout ∈ (Layout.forDialect headerless).toOption,
      ∃ run ∈ outcome (writeEdited headerless insertAtEnd 4 (by decide))
        (fresh unclosedQuote fun _ => false),
      run.2.sink.bytes = savedBehindQuote.content ∧
      insertAtEnd.NamesRecords headerless layout unclosedQuote.content ∧
      insertAtEnd.editedRecords headerless layout unclosedQuote.content =
        [[['a', 'b', 'c']], [['x']]] := by
    unfold EditSet.NamesRecords
    decide +kernel
  have hread : ∃ r ∈ (openReader savedBehindQuote headerless singleRecordPages).toOption,
      ∃ page ∈ outcome (readPage 0) r, r.header.isNone ∧
      page.1.records.map Record.fields = [[['a', 'b', 'c', '\n', 'x', '\n']]] := by
    decide +kernel
  obtain ⟨layout, hlayout, ⟨⟨⟩, t⟩, hrun, hbytes, hnames, hedited⟩ := hwritten
  obtain ⟨r, hopen, ⟨page, u⟩, hpage, hheader, hfields⟩ := hread
  refine ⟨layout, t, toOption_eq_some.mp hlayout, latin1_faithful, hnames,
    outcome_eq_some.mp hrun, hedited, fun hreads => ?_⟩
  obtain ⟨data, hdata, -, hpages⟩ := hreads _ singleRecordPages r hbytes.symm
    (toOption_eq_some.mp hopen)
  rw [Option.isNone_iff_eq_none.mp hheader] at hdata
  obtain rfl : data = _ := hdata
  have hslice := hpages 0 page u (outcome_eq_some.mp hpage)
  rw [hfields] at hslice
  exact absurd hslice (by decide)

end Dbflux.Delimited

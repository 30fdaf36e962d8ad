import Dbflux.Delimited.WriterReadBack

/-!
# A save keeps the bytes it does not edit

What `write_edited` writes without appended columns, stated record by record
and without windows, ranges or a plan (`EditSet.rewrite`): the byte-order mark,
then for each record of the source what is inserted before it and what becomes
of itself, then what is inserted at the end. The writer copies the stretches
between edited records by range, in windows, and looks only at the last code
unit written.

The edits name records of the source. The writer's own check also accepts a
range inside a quoted field that looks like a record; such a range is rewritten
in the middle of a record (`rewritten_inside_a_record`).

Results:
* `rewriteRecords_of_emit`: the writer's output is the record-by-record one.
* `writeEdited_rewrites`: what a successful save wrote.
-/

namespace Dbflux.Delimited

open Lib List

/-! ## Record by record -/

/-- The bytes of a record made of these fields, if it can be rendered. -/
def Renderer.bytesOf (r : Renderer) (fields : List Text) : Option Bytes :=
  (r.record fields (.inserted 0)).toOption

/-- The terminator of a record inserted next to one that ends with `own`. -/
def terminatorOr (own fallback : Bytes) : Bytes := if own.isEmpty then fallback else own

/-- A record that is neither replaced nor deleted: its own bytes, with a pair
of quotes in front of an empty line that would join a carriage return. -/
def keptBytes (layout : Layout) (written raw : Bytes) : Option Bytes :=
  if endsWithReturn layout written = true ∧ raw = layout.width.unitBytes lineFeed then
    layout.quote.map fun quote => layout.width.unitBytes quote ++ layout.width.unitBytes quote ++ raw
  else some raw

namespace EditSet

variable (edits : EditSet) (r : Renderer) (fallback : Bytes)

/-- The records inserted before the record `raw` at `start`. -/
def rewriteBefore (start : ℕ) (raw : Bytes) : Option Bytes :=
  ((edits.insertionsBefore start).mapM r.bytesOf).map fun rendered =>
    (rendered.map (· ++ terminatorOr (terminatorOf r.layout raw) fallback)).flatten

/-- What the record `raw` at `start` itself becomes after the bytes `written`. -/
def rewriteOwn (written : Bytes) (start : ℕ) (raw : Bytes) : Option Bytes :=
  match edits.replacementAt start with
  | some fields => (r.bytesOf fields).map (· ++ terminatorOf r.layout raw)
  | none => if edits.deletesAt start then some [] else keptBytes r.layout written raw

/-- What the records from `start` on become. -/
def rewriteRecords : List Bytes → ℕ → Bytes → Option Bytes
  | [], _, _ => some []
  | raw :: rest, start, written => do
    let before ← edits.rewriteBefore r fallback start raw
    let own ← edits.rewriteOwn r (written ++ before) start raw
    let following ← rewriteRecords rest (start + raw.length) (written ++ before ++ own)
    pure (before ++ own ++ following)

/-- The records inserted at the end, behind the last record if there is one. A
last record that stays and has no terminator is given one. -/
def rewriteAtEnd (last : Option (ℕ × Bytes)) : Option Bytes :=
  (edits.insertionsAtEnd.mapM r.bytesOf).map fun rendered =>
    let own := (last.map fun entry => terminatorOf r.layout entry.2).getD []
    let stays := last.any fun entry => !edits.deletesAt entry.1
    (if !rendered.isEmpty && own.isEmpty && stays then fallback else []) ++
      (rendered.map (· ++ terminatorOr own fallback)).flatten

/-- The source with the edits. -/
def rewrite (dialect : Dialect) (layout : Layout) (content : Bytes) : Option Bytes := do
  let start := markLength dialect.encoding content
  let raws := allRaw dialect layout content
  let fallback := fallbackTerminator layout raws
  let records ← edits.rewriteRecords ⟨layout, dialect.encoding⟩ fallback raws start
    (content.take start)
  let atEnd ← edits.rewriteAtEnd ⟨layout, dialect.encoding⟩ fallback
    (raws.getLast?.map fun last => (content.length - last.length, last))
  pure (content.take start ++ records ++ atEnd)

end EditSet

/-! ## The writer's output -/

section Output

variable {layout : Layout} {r : Renderer} {fields : List Text} {bytes raw written : Bytes}

/-- The bytes of a rendered field do not depend on where it is. -/
theorem field_location {text : Text} {isOnlyField : Bool} {location other : EditLocation}
    {index index' : ℕ} (h : r.field text isOnlyField location index = .ok bytes) :
    r.field text isOnlyField other index' = .ok bytes := by
  unfold Renderer.field at h ⊢
  cases hencode : encodeText r.encoding text with
  | error refused => simp [hencode] at h
  | ok encoded =>
    simp only [hencode] at h ⊢
    cases hquote : r.layout.quote with simp only [hquote] at h ⊢
    | none =>
      split_ifs at h ⊢
      exact h
    | some quote =>
      exact h

theorem recordFrom_location {isOnlyField : Bool} {location : EditLocation} {index : ℕ}
    (other : EditLocation) (h : r.recordFrom isOnlyField location index fields = .ok bytes) :
    r.recordFrom isOnlyField other index fields = .ok bytes := by
  induction fields generalizing index bytes with
  | nil => exact h
  | cons text rest ih =>
    obtain ⟨field, following, hfield, hrest, rfl⟩ := recordFrom_cons h
    rw [Renderer.recordFrom, field_location hfield, ih hrest]
    rfl

theorem Rendered.bytesOf (h : Rendered r fields bytes) : r.bytesOf fields = some bytes := by
  obtain ⟨location, hrecord⟩ := h
  rw [Renderer.bytesOf, toOption_eq_some]
  cases fields with
  | nil => exact field_location hrecord
  | cons text rest => exact recordFrom_location _ hrecord

theorem mapM_bytesOf {texts : List (List Text)} {rendered : List Bytes}
    (h : List.Forall₂ (Rendered r) texts rendered) : texts.mapM r.bytesOf = some rendered := by
  induction h with
  | nil => rfl
  | cons hfirst _ ih =>
    rw [mapM_cons, hfirst.bytesOf, ih]
    rfl

variable {dialect : Dialect} {content output : Bytes} {edits : EditSet} {plan : Plan}
  {checked : PlannedRecords} {outs : List Bytes}

variable (h : Saved dialect edits content output layout plan checked outs)
include h

/-- What is inserted before a record. -/
theorem rewriteBefore_eq (start : ℕ) (raw : Bytes) : edits.rewriteBefore ⟨layout, dialect.encoding⟩
        (fallbackTerminator layout (allRaw dialect layout content)) start raw =
      some (h.emission.insertedAt start raw).flatten := by
  rw [EditSet.rewriteBefore, mapM_bytesOf (h.planned.inserted start),
    insertedAt_eq h, Option.map_some]
  by_cases hnone : edits.insertions = []
  · have hempty : (editsAt plan.records start).insertedBefore = [] := by
      have hlength := (h.planned.inserted start).length_eq
      rw [EditSet.insertionsBefore, hnone] at hlength
      exact length_eq_zero_iff.mp hlength.symm
    rw [hempty]
    rfl
  · rw [Emission.insertedTerminator, fallback_eq h hnone]
    rfl

/-- **One record.** Without appended columns the writer's output for a record
is what is inserted before it and what becomes of itself. -/
theorem outsOf_rewrites (hcolumns : edits.appendedColumns = []) {start : ℕ} {x : Bytes}
    (hends : EndsBefore layout raw x) {own : List Bytes}
    (houts : h.emission.outsOf written start raw = some own) :
    ∃ bytes, edits.rewriteOwn ⟨layout, dialect.encoding⟩
        (written ++ (h.emission.insertedAt start raw).flatten) start raw = some bytes ∧
      own.flatten = (h.emission.insertedAt start raw).flatten ++ bytes := by
  have happended : h.emission.appended = none := h.planned.columns.mp hcolumns
  unfold Emission.outsOf at houts
  unfold EditSet.rewriteOwn
  rw [actionAt_eq h] at houts
  rcases h.planned.action_cases start with ⟨fields, bytes, hreplaced, -, hbytes, hact⟩ |
    ⟨hreplaced, hdeleted, hact⟩ | ⟨hreplaced, hdeleted, hact⟩
  · rw [hact] at houts
    cases houts
    refine ⟨bytes ++ terminatorOf layout raw, by simp [hreplaced, hbytes.bytesOf], ?_⟩
    rw [flatten_append, flatten_singleton]
    rfl
  · rw [hact] at houts
    cases houts
    exact ⟨[], by simp [hreplaced, hdeleted], (append_nil _).symm⟩
  · rw [hact, Emission.kept, happended] at houts
    obtain ⟨kept, hkept, rfl⟩ := Option.map_eq_some_iff.mp houts
    refine ⟨kept, ?_, by rw [flatten_append, flatten_singleton]⟩
    -- the line feed that needs quotes is a record of its own
    have hfeed : (layout.width.units raw).head? = some lineFeed ↔
        raw = layout.width.unitBytes lineFeed := by
      refine ⟨eq_lineFeed_of_head hends, fun hraw => ?_⟩
      rw [hraw, layout.width.units_unitBytes (lineFeed_lt_bound layout)]
      rfl
    have hkept : copied layout _ raw = some kept := hkept
    simpa [hreplaced, hdeleted, copied, keptBytes, hfeed] using hkept

/-- **All records.** -/
theorem rewriteRecords_of_emit (hcolumns : edits.appendedColumns = []) :
    ∀ (raws : List Bytes) (start : ℕ) (written : Bytes) {emitted : List Bytes},
    rawRecords layout (content.drop start) = raws →
    h.emission.emit raws start written = some emitted →
    edits.rewriteRecords ⟨layout, dialect.encoding⟩
      (fallbackTerminator layout (allRaw dialect layout content)) raws start written =
        some emitted.flatten := by
  intro raws
  induction raws with
  | nil =>
    intro start written emitted _ hemit
    cases hemit
    rfl
  | cons raw rest ih =>
    intro start written emitted hraw hemit
    obtain ⟨-, -, hends, hrest⟩ := piece_of_rawRecords hraw
    obtain ⟨own, hown, hemit⟩ := Option.bind_eq_some_iff.mp hemit
    obtain ⟨following, hfollowing, rfl⟩ := Option.map_eq_some_iff.mp hemit
    obtain ⟨bytes, hbytes, hflatten⟩ := outsOf_rewrites h hcolumns hends hown
    have hlater := ih (start + raw.length) _ hrest hfollowing
    rw [hflatten, ← append_assoc] at hlater
    simp only [EditSet.rewriteRecords, rewriteBefore_eq h, hbytes, hlater, flatten_append,
      hflatten, Option.bind_eq_bind, Option.bind_some, Option.pure_def]

/-- What is inserted at the end. -/
theorem rewriteAtEnd_eq (hnames : edits.NamesRecords dialect layout content) :
    edits.rewriteAtEnd ⟨layout, dialect.encoding⟩
        (fallbackTerminator layout (allRaw dialect layout content))
        ((allRaw dialect layout content).getLast?.map fun last =>
          (content.length - last.length, last)) =
      some (Output.atEndBytes layout (content.drop (markLength dialect.encoding content))
        h.emission.fallback
        (plan.finalRecordIs ⟨markLength dialect.encoding content, content.length⟩
          fun action => decide (action = .delete))
        plan.insertedAtEnd) := by
  rw [EditSet.rewriteAtEnd, mapM_bytesOf h.planned.atEnd, Option.map_some, Option.some.injEq]
  unfold Output.atEndBytes
  cases hinserted : plan.insertedAtEnd with
  | nil => rfl
  | cons first others =>
    have hinsertions : edits.insertions ≠ [] := by
      intro hnone
      have hlength := h.planned.atEnd.length_eq
      rw [EditSet.insertionsAtEnd, hnone, hinserted] at hlength
      cases hlength
    rw [fallback_eq h hinsertions]
    have htotal := mark_add_flatten dialect layout content
    have hdata := rawRecords_flatten layout (content.drop (markLength dialect.encoding content))
    rw [← allRaw] at hdata
    cases hlast : (allRaw dialect layout content).getLast? with
    | none =>
      rw [getLast?_eq_none_iff] at hlast
      rw [hlast, flatten_nil] at hdata
      simp [← hdata, terminatorOf_nil, terminatorOr]
    | some last =>
      obtain ⟨before, hbefore⟩ := getLast?_eq_some_iff.mp hlast
      have hlength : last.length ≤ content.length := by
        rw [← htotal, hbefore, flatten_append, flatten_singleton, length_append]
        omega
      have hne : last ≠ [] := rawRecords_ne_nil (mem_of_getLast? hlast)
      have hdata' : content.drop (markLength dialect.encoding content) ≠ [] := by
        intro hnil
        rw [hnil, hbefore, flatten_append, flatten_singleton] at hdata
        exact hne (append_eq_nil_iff.mp hdata).2
      rw [terminatorOf_last hlast, finalRecordDeleted_eq h hnames hlast (Nat.sub_add_cancel hlength)]
      by_cases hterm : terminatorOf layout last = []
      · simp [hterm, hdata', terminatorOr]
      · simp [hterm, terminatorOr]

omit h

end Output

/-- **A save keeps the bytes it does not edit.** Whatever the window, a
successful save of edits that name records, without appended columns, wrote
exactly the source with the edits. -/
theorem writeEdited_rewrites {dialect : Dialect} {layout : Layout} {edits : EditSet}
    {windowSize : ℕ} {hwindow : 0 < windowSize} {source : Source} {refuses : ℕ → Bool} {t : Output}
    (hlayout : Layout.forDialect dialect = .ok layout)
    (hnames : edits.NamesRecords dialect layout source.content)
    (hcolumns : edits.appendedColumns = [])
    (hrun : writeEdited dialect edits windowSize hwindow (Output.fresh source refuses) = .ok () t) :
    edits.rewrite dialect layout source.content = some t.sink.bytes := by
  obtain ⟨plan, checked, outs, hsaved⟩ :=
    (writeEdited_ensures hwindow source refuses hlayout hnames).ok hrun
  have hrecords := rewriteRecords_of_emit hsaved hcolumns (allRaw dialect layout source.content) _ _
    rfl hsaved.emitted
  simp [EditSet.rewrite, hrecords, rewriteAtEnd_eq hsaved hnames, hsaved.output]

theorem mixedEdits_rewritten : ∃ layout t, Layout.forDialect PagedReader.commaDialect = .ok layout ∧
      writeEdited PagedReader.commaDialect mixedEdits 2 (by decide)
        (Output.fresh threeRecords fun _ => false) = .ok () t ∧
      mixedEdits.rewrite PagedReader.commaDialect layout threeRecords.content =
        some t.sink.bytes := by
  have heval : ∃ layout ∈ (Layout.forDialect PagedReader.commaDialect).toOption,
      ∃ run ∈ outcome (writeEdited PagedReader.commaDialect mixedEdits 2 (by decide))
        (Output.fresh threeRecords fun _ => false),
      mixedEdits.NamesRecords PagedReader.commaDialect layout threeRecords.content := by
    unfold EditSet.NamesRecords
    decide +kernel
  obtain ⟨layout, hlayout, ⟨⟨⟩, t⟩, hrun, hnames⟩ := heval
  have hlayout := toOption_eq_some.mp hlayout
  have hrun := outcome_eq_some.mp hrun
  exact ⟨layout, t, hlayout, hrun, writeEdited_rewrites hlayout hnames rfl hrun⟩

/-- One record with a line feed inside quotes, `"a`, a line feed, `b"`, a line
feed. -/
def quotedBreak : Source := PagedReader.plainSource [34, 97, 10, 98, 34, 10] (by decide)

/-- The bytes behind the inner line feed are deleted. -/
def deleteInside : EditSet := ⟨6, [], [⟨3, 6⟩], [], []⟩

/-- A range inside a quoted field passes the writer's check, and the record
around it does not keep its bytes. -/
theorem rewritten_inside_a_record : ∃ layout ∈ (Layout.forDialect headerless).toOption,
      ∃ run ∈ outcome (writeEdited headerless deleteInside 4 (by decide))
        (Output.fresh quotedBreak fun _ => false),
      run.2.sink.bytes = [34, 97, 10] ∧
      deleteInside.rewrite headerless layout quotedBreak.content =
        some [34, 97, 10, 98, 34, 10] := by
  decide +kernel

end Dbflux.Delimited

import Dbflux.Delimited.Render

/-!
# What the plan says about a record

`Plan::build` goes over the replacements, the deletions, the insertions and the
appended columns one after another and collects what they say about each
record in a map. A record is known there by its start.

Results:
* `planReplacements_ok`, `planDeletions_ok`, `planInsertions_ok`,
  `planAppendedColumns_ok`: what each loop adds to a record's entry.
* `Plan.build_ok`: an accepted plan has, for every record, exactly what the
  edits say about it, rendered.
-/

namespace Dbflux.Delimited

open Lib List

/-! ## What the edits say about a record -/

/-- The fields an insertion puts before the record at `start`. -/
def Insertion.fieldsBefore (start : ℕ) (insertion : Insertion) : Option (List Text) :=
  match insertion.position with
  | .before range => if range.start = start then some insertion.fields else none
  | .atEnd => none

/-- The fields an insertion puts at the end. -/
def Insertion.fieldsAtEnd (insertion : Insertion) : Option (List Text) :=
  match insertion.position with
  | .before _ => none
  | .atEnd => some insertion.fields

/-- The range an insertion names. -/
def Insertion.range (insertion : Insertion) : Option ByteRange :=
  match insertion.position with
  | .before range => some range
  | .atEnd => none

/-- The column's own value for the record at `start`. -/
def AppendedColumn.valueAt (start : ℕ) (column : AppendedColumn) : Option Text :=
  (column.values.find? fun value => decide (value.1.start = start)).map Prod.snd

/-- The values the columns append to the record at `start`: its own, else the
column's name for the header, else the default. -/
def appendedValues (columns : List AppendedColumn) (isHeader : Bool) (start : ℕ) : List Text :=
  columns.map fun column =>
    (column.valueAt start).getD (if isHeader then column.header else column.defaultValue)

namespace EditSet

variable (edits : EditSet)

/-- The fields that replace the record at `start`. -/
def replacementAt (start : ℕ) : Option (List Text) :=
  (edits.replacements.find? fun replacement => decide (replacement.byteRange.start = start)).map
    Replacement.fields

def deletesAt (start : ℕ) : Bool := edits.deletions.any fun range => decide (range.start = start)

def insertionsBefore (start : ℕ) : List (List Text) :=
  edits.insertions.filterMap (Insertion.fieldsBefore start)

def insertionsAtEnd : List (List Text) := edits.insertions.filterMap Insertion.fieldsAtEnd

/-- Every range the edits name. -/
def ranges : List ByteRange :=
  edits.replacements.map Replacement.byteRange ++ edits.deletions ++
    edits.insertions.filterMap Insertion.range ++
    edits.appendedColumns.flatMap fun column => column.values.map Prod.fst

end EditSet

/-! ## Entries of the map -/

/-- What an entry says about its record. -/
structure RecordEdits where
  action : Action
  insertedBefore : List Bytes
  appended : Option Bytes

/-- What is said about a record without an entry. -/
def RecordEdits.none : RecordEdits := ⟨.keep, [], Option.none⟩

def RecordPlan.edits (record : RecordPlan) : RecordEdits :=
  ⟨record.action, record.insertedBefore, record.appended⟩

/-- What the map says about the record at `start`. -/
def editsAt (records : PlannedRecords) (start : ℕ) : RecordEdits :=
  ((records.get? start).map RecordPlan.edits).getD .none

/-- Every entry is for a range of `named`. -/
def Names (named : ByteRange → Prop) (records : PlannedRecords) : Prop :=
  ∀ k record, records.get? k = some record → named ⟨k, record.finish⟩

section Entries

variable {records : PlannedRecords} {bounds range : ByteRange} {record : RecordPlan}
  {named : ByteRange → Prop}

theorem editsAt_set (k j : ℕ) :
    editsAt (records.set k record) j = if j = k then record.edits else editsAt records j := by
  unfold editsAt
  rw [OrderedMap.get?_set]
  split_ifs <;> rfl

theorem Names.set (h : Names named records) {k : ℕ} (hrange : named ⟨k, record.finish⟩) :
    Names named (records.set k record) := by
  intro j r hj
  rw [OrderedMap.get?_set] at hj
  split_ifs at hj with heq
  · cases hj
    rwa [heq]
  · exact h j r hj

/-- The entry `planned_record` returns says what the map says, and it can be changed
for any that ends there. -/
theorem plannedRecord_ok (h : plannedRecord records bounds range = .ok record) :
    record.edits = editsAt records range.start ∧
      ∀ {updated : RecordPlan}, updated.finish = record.finish → Names named records → named range →
        Names named (records.set range.start updated) := by
  unfold plannedRecord at h
  dsimp only at h
  split_ifs at h with houtside hbefore hfinish
  cases h
  constructor
  · unfold editsAt
    cases records.get? range.start <;> rfl
  · intro updated hupdated hnames hrange
    refine hnames.set ?_
    rwa [hupdated, not_not.mp hfinish]

end Entries

/-! ## Replacements and deletions -/

/-- The bytes are a rendering of the fields. -/
def Rendered (renderer : Renderer) (fields : List Text) (bytes : Bytes) : Prop :=
  ∃ location, renderer.record fields location = .ok bytes

section Loops

variable {renderer : Renderer} {bounds : ByteRange} {records after : PlannedRecords}
  {named : ByteRange → Prop}

theorem planReplacements_ok : ∀ (replacements : List Replacement) (records : PlannedRecords),
    planReplacements renderer bounds replacements records = .ok after → Names named records →
    (∀ replacement ∈ replacements, named replacement.byteRange) →
    Names named after ∧ ∀ k,
      match replacements.find? (fun replacement => decide (replacement.byteRange.start = k)) with
      | none => editsAt after k = editsAt records k
      | some replacement => (editsAt records k).action = .keep ∧
          ∃ bytes, Rendered renderer replacement.fields bytes ∧
            editsAt after k = { editsAt records k with action := .replace bytes } := by
  intro replacements
  induction replacements with
  | nil =>
    intro records h hnames _
    cases h
    exact ⟨hnames, fun k => rfl⟩
  | cons replacement rest ih =>
    intro records h hnames hnamed
    obtain ⟨hrange, hnamed⟩ := forall_mem_cons.mp hnamed
    obtain ⟨record, hrecord, h⟩ := bind_eq_ok.mp h
    obtain ⟨hedits, hset⟩ := plannedRecord_ok hrecord
    by_cases hkeep : record.action = .keep
    · rw [if_neg (not_not.mpr hkeep)] at h
      obtain ⟨bytes, hbytes, h⟩ := bind_eq_ok.mp h
      obtain ⟨hafter, hrest⟩ := ih _ h (hset rfl hnames hrange) hnamed
      refine ⟨hafter, fun k => ?_⟩
      have hk := hrest k
      rw [editsAt_set] at hk
      by_cases hstart : replacement.byteRange.start = k
      · subst hstart
        rw [find?_cons_of_pos (by simp)]
        rw [if_pos rfl] at hk
        have hbefore : editsAt records replacement.byteRange.start = record.edits := hedits.symm
        refine ⟨by rw [hbefore]; exact hkeep, bytes, ⟨_, hbytes⟩, ?_⟩
        -- a second replacement of the record would have been refused
        split at hk
        · rw [hk, hbefore]
          rfl
        · cases hk.1
      · rw [find?_cons_of_neg (by simpa using hstart)]
        rwa [if_neg (Ne.symm hstart)] at hk
    · rw [if_pos hkeep] at h
      cases h

theorem planDeletions_ok : ∀ (deletions : List ByteRange) (records : PlannedRecords),
    planDeletions bounds deletions records = .ok after → Names named records →
    (∀ range ∈ deletions, named range) →
    Names named after ∧ ∀ k,
      if deletions.any (fun range => decide (range.start = k)) then
        (editsAt records k).action = .keep ∧
          editsAt after k = { editsAt records k with action := .delete }
      else editsAt after k = editsAt records k := by
  intro deletions
  induction deletions with
  | nil =>
    intro records h hnames _
    cases h
    exact ⟨hnames, fun k => rfl⟩
  | cons range rest ih =>
    intro records h hnames hnamed
    obtain ⟨hrange, hnamed⟩ := forall_mem_cons.mp hnamed
    obtain ⟨record, hrecord, h⟩ := bind_eq_ok.mp h
    obtain ⟨hedits, hset⟩ := plannedRecord_ok hrecord
    cases hkeep : record.action with
    | keep =>
      rw [hkeep] at h
      obtain ⟨hafter, hrest⟩ := ih _ h (hset rfl hnames hrange) hnamed
      refine ⟨hafter, fun k => ?_⟩
      have hk := hrest k
      rw [editsAt_set] at hk
      by_cases hstart : range.start = k
      · subst hstart
        rw [if_pos (by simp)]
        rw [if_pos rfl] at hk
        refine ⟨by rw [← hedits]; exact hkeep, ?_⟩
        split_ifs at hk with hagain
        · cases hk.1
        · rw [hk, ← hedits]
          rfl
      · rw [any_cons, decide_eq_false hstart, Bool.false_or]
        rwa [if_neg (Ne.symm hstart)] at hk
    | replace | delete =>
      rw [hkeep] at h
      cases h

theorem planInsertions_ok : ∀ (insertions : List Insertion) (index : ℕ) (records : PlannedRecords)
    (atEnd : List Bytes) {atEnd' : List Bytes},
    planInsertions renderer bounds index insertions records atEnd = .ok (after, atEnd') →
    Names named records → (∀ range ∈ insertions.filterMap Insertion.range, named range) →
    Names named after ∧
    (∀ k, ∃ rendered,
      List.Forall₂ (Rendered renderer) (insertions.filterMap (Insertion.fieldsBefore k)) rendered ∧
      editsAt after k = { editsAt records k with
        insertedBefore := (editsAt records k).insertedBefore ++ rendered }) ∧
    ∃ rendered, List.Forall₂ (Rendered renderer) (insertions.filterMap Insertion.fieldsAtEnd) rendered ∧
      atEnd' = atEnd ++ rendered := by
  intro insertions
  induction insertions with
  | nil =>
    intro index records atEnd atEnd' h hnames _
    obtain ⟨rfl, rfl⟩ := Prod.mk.inj (Except.ok.inj h)
    exact ⟨hnames, fun k => ⟨[], .nil, by rw [append_nil]⟩, [], .nil, (append_nil _).symm⟩
  | cons insertion rest ih =>
    intro index records atEnd atEnd' h hnames hnamed
    obtain ⟨bytes, hbytes, h⟩ := bind_eq_ok.mp h
    have hrendered : Rendered renderer insertion.fields bytes := ⟨_, hbytes⟩
    cases hposition : insertion.position with
      simp only [hposition, filterMap_cons, Insertion.range, Insertion.fieldsBefore,
        Insertion.fieldsAtEnd] at h hnamed ⊢
    | before range =>
      obtain ⟨record, hrecord, h⟩ := bind_eq_ok.mp h
      obtain ⟨hedits, hset⟩ := plannedRecord_ok hrecord
      rw [forall_mem_cons] at hnamed
      obtain ⟨hafter, hbefore, hend⟩ := ih _ _ _ h (hset rfl hnames hnamed.1) hnamed.2
      refine ⟨hafter, fun k => ?_, hend⟩
      obtain ⟨rendered, hall, hk⟩ := hbefore k
      rw [editsAt_set] at hk
      by_cases hstart : range.start = k
      · subst hstart
        rw [if_pos rfl]
        refine ⟨bytes :: rendered, .cons hrendered hall, ?_⟩
        rw [hk, ← hedits]
        simp [RecordPlan.edits]
      · rw [if_neg (Ne.symm hstart)] at hk
        rw [if_neg hstart]
        exact ⟨rendered, hall, hk⟩
    | atEnd =>
      obtain ⟨hafter, hbefore, rendered, hall, hend⟩ := ih _ _ _ h hnames hnamed
      exact ⟨hafter, hbefore, bytes :: rendered, .cons hrendered hall, by rw [hend]; simp⟩

/-! ## Appended columns -/

/-- The bytes are the texts as further fields of a record. -/
def RenderedTail (renderer : Renderer) (texts : List Text) (bytes : Bytes) : Prop :=
  ∃ encoded, Encodes renderer.encoding texts encoded ∧ RendersTail renderer.layout bytes encoded

theorem RenderedTail.cons (hwidth : renderer.layout.width = renderer.encoding.width) {text : Text}
    {location : EditLocation} {rendered tail : Bytes} {texts : List Text}
    (h : renderer.appendedField text location = .ok rendered)
    (htail : RenderedTail renderer texts tail) :
    RenderedTail renderer (text :: texts) (rendered ++ tail) := by
  obtain ⟨rest, hrest, htail⟩ := htail
  obtain ⟨field, hfield, h⟩ := bind_eq_ok.mp h
  obtain ⟨encoded, hencoded, hrenders, -, -⟩ := field_renders hwidth hfield
  exact ⟨encoded :: rest, .cons hencoded hrest, Except.ok.inj h ▸ RendersTail.cons hrenders htail⟩

theorem RenderedTail.nil (renderer : Renderer) : RenderedTail renderer [] [] :=
  ⟨[], .nil, .nil⟩

/-- The values collected for the record at `start`, by column. -/
def valuesAt (own : OwnValues) (columnCount start : ℕ) : List (Option Text) :=
  ((own.get? start).map Prod.snd).getD (List.replicate columnCount none)

/-- Every collected entry is for a range of `named` that starts at its key. -/
def OwnNames (named : ByteRange → Prop) (own : OwnValues) : Prop :=
  ∀ k range values, own.get? k = some (range, values) → range.start = k ∧ named range

variable {columnCount : ℕ}

theorem planValues_ok {index : ℕ} :
    ∀ (values : List (ByteRange × Text)) (records : PlannedRecords) (own : OwnValues)
      {own' : OwnValues},
    planValues bounds columnCount index values records own = .ok (after, own') →
    Names named records → OwnNames named own → (∀ value ∈ values, named value.1) →
    Names named after ∧ OwnNames named own' ∧ (∀ k, editsAt after k = editsAt records k) ∧
    ∀ k, match values.find? (fun value => decide (value.1.start = k)) with
      | none => valuesAt own' columnCount k = valuesAt own columnCount k
      | some value => (valuesAt own columnCount k)[index]? = some none ∧
          valuesAt own' columnCount k = (valuesAt own columnCount k).set index (some value.2) := by
  intro values
  induction values with
  | nil =>
    intro records own own' h hnames hown _
    obtain ⟨rfl, rfl⟩ := Prod.mk.inj (Except.ok.inj h)
    exact ⟨hnames, hown, fun k => rfl, fun k => rfl⟩
  | cons value rest ih =>
    obtain ⟨range, text⟩ := value
    intro records own own' h hnames hown hnamed
    obtain ⟨record, hrecord, h⟩ := bind_eq_ok.mp h
    obtain ⟨hedits, hset⟩ := plannedRecord_ok hrecord
    obtain ⟨hrange, hnamed⟩ := forall_mem_cons.mp hnamed
    -- the entry the loop goes on with
    obtain ⟨range', collected, hentry, hcollected, hrange'⟩ : ∃ range' collected,
        (own.get? range.start).getD (range, .replicate columnCount none) =
          (range', collected) ∧ collected = valuesAt own columnCount range.start ∧
        range'.start = range.start ∧ named range' := by
      unfold valuesAt
      cases hget : own.get? range.start with
      | none => exact ⟨range, _, rfl, rfl, rfl, hrange⟩
      | some entry => exact ⟨entry.1, entry.2, rfl, rfl, hown _ _ _ hget⟩
    simp only [hentry] at h
    split at h
    next hfree =>
      have hown' : OwnNames named
          (own.set range.start (range', collected.set index (some text))) := by
        intro k r vs hk
        rw [OrderedMap.get?_set] at hk
        split_ifs at hk with heq
        · obtain ⟨rfl, rfl⟩ := Prod.mk.inj (Option.some.inj hk)
          exact ⟨hrange'.1.trans heq.symm, hrange'.2⟩
        · exact hown k r vs hk
      have hvalues : ∀ k, valuesAt (own.set range.start (range', collected.set index (some text)))
          columnCount k = if k = range.start then collected.set index (some text)
            else valuesAt own columnCount k := by
        intro k
        unfold valuesAt
        rw [OrderedMap.get?_set]
        split_ifs <;> rfl
      obtain ⟨hafter, hownAfter, hsame, hrest⟩ := ih _ _ h (hset rfl hnames hrange) hown' hnamed
      refine ⟨hafter, hownAfter, fun k => ?_, fun k => ?_⟩
      · rw [hsame, editsAt_set]
        split_ifs with hk
        · rw [hedits, hk]
        · rfl
      · have hk := hrest k
        rw [hvalues] at hk
        by_cases hstart : range.start = k
        · subst hstart
          rw [find?_cons_of_pos (by simp)]
          rw [if_pos rfl] at hk
          rw [← hcollected]
          refine ⟨hfree, ?_⟩
          split at hk
          · exact hk
          · -- a second value for the record would have been refused
            have hlt : index < collected.length := (List.getElem?_eq_some_iff.mp hfree).1
            rw [getElem?_set_self hlt] at hk
            cases hk.1
        · rw [find?_cons_of_neg (by simpa using hstart)]
          rwa [if_neg (Ne.symm hstart)] at hk
    next => cases h

/-- The columns of `done` have been collected. -/
def Collected (own : OwnValues) (columnCount : ℕ) (done : List AppendedColumn) : Prop :=
  ∀ k, valuesAt own columnCount k = done.map (AppendedColumn.valueAt k) ++
    List.replicate (columnCount - done.length) none

variable {column : AppendedColumn}

theorem Collected.snoc {own own' : OwnValues} {done : List AppendedColumn}
    (h : Collected own columnCount done) (hlt : done.length < columnCount)
    (hvalues : ∀ k,
      match column.values.find? (fun value => decide (value.1.start = k)) with
      | none => valuesAt own' columnCount k = valuesAt own columnCount k
      | some value => (valuesAt own columnCount k)[done.length]? = some none ∧
          valuesAt own' columnCount k =
            (valuesAt own columnCount k).set done.length (some value.2)) :
    Collected own' columnCount (done ++ [column]) := by
  intro k
  have hk := hvalues k
  have hcount : columnCount - done.length = columnCount - (done ++ [column]).length + 1 := by
    rw [length_append, length_singleton]
    omega
  rw [h k, hcount, replicate_succ] at hk
  rw [map_append, append_assoc]
  have hlength : (done.map (AppendedColumn.valueAt k)).length = done.length := length_map _
  cases hfind : column.values.find? (fun value => decide (value.1.start = k)) with
  | none =>
    rw [hfind] at hk
    have hvalue : column.valueAt k = none := by rw [AppendedColumn.valueAt, hfind]; rfl
    rw [hk, map_singleton, hvalue]
    rfl
  | some value =>
    rw [hfind] at hk
    have hvalue : column.valueAt k = some value.2 := by rw [AppendedColumn.valueAt, hfind]; rfl
    rw [hk.2, map_singleton, hvalue, set_append_right _ _ hlength.le, hlength, Nat.sub_self]
    rfl

variable (hwidth : renderer.layout.width = renderer.encoding.width)
include hwidth

theorem planColumns_ok {hasHeader : Bool} :
    ∀ (columns done : List AppendedColumn) (fields : AppendedFields) (records : PlannedRecords)
      (own : OwnValues) {fields' : AppendedFields} {own' : OwnValues},
    planColumns renderer bounds hasHeader columnCount done.length columns fields records own =
      .ok (fields', after, own') →
    done.length + columns.length = columnCount → Collected own columnCount done →
    Names named records → OwnNames named own →
    (∀ column ∈ columns, ∀ value ∈ column.values, named value.1) →
    Names named after ∧ OwnNames named own' ∧ (∀ k, editsAt after k = editsAt records k) ∧
    Collected own' columnCount (done ++ columns) ∧
    (∃ header, fields'.header = fields.header ++ header ∧
      (hasHeader = true → RenderedTail renderer (columns.map AppendedColumn.header) header)) ∧
    ∃ default, fields'.default = fields.default ++ default ∧
      RenderedTail renderer (columns.map AppendedColumn.defaultValue) default := by
  intro columns
  induction columns with
  | nil =>
    intro done fields records own fields' own' h _ hdone hnames hown _
    obtain ⟨rfl, hrest⟩ := Prod.mk.inj (Except.ok.inj h)
    obtain ⟨rfl, rfl⟩ := Prod.mk.inj hrest
    refine ⟨hnames, hown, fun k => rfl, by rwa [append_nil], ⟨[], ?_, fun _ => .nil renderer⟩,
      [], ?_, .nil renderer⟩ <;> rw [append_nil]
  | cons column rest ih =>
    intro done fields records own fields' own' h hcount hdone hnames hown hnamed
    rw [forall_mem_cons] at hnamed
    obtain ⟨header, hheader, h⟩ := ite_bind_eq_ok.mp h
    obtain ⟨default, hdefault, h⟩ := bind_eq_ok.mp h
    obtain ⟨⟨records', own₁⟩, hvalues, h⟩ := bind_eq_ok.mp h
    obtain ⟨hnames', hown', hsame, hcollected⟩ := planValues_ok column.values records own hvalues
      hnames hown hnamed.1
    have hlt : done.length < columnCount := by
      rw [length_cons] at hcount
      omega
    have hdone' := hdone.snoc hlt hcollected
    have hlength : done.length + 1 = (done ++ [column]).length := by simp
    simp only [hlength] at h
    obtain ⟨hafter, hownAfter, hsameAfter, hall, ⟨headers, hheaders, hheaderTail⟩,
      defaults, hdefaults, hdefaultTail⟩ := ih (done ++ [column]) _ records' own₁ h
        (by rw [← hlength]; rw [length_cons] at hcount; omega) hdone' hnames' hown'
        hnamed.2
    refine ⟨hafter, hownAfter, fun k => (hsameAfter k).trans (hsame k), ?_,
      ⟨header ++ headers, ?_, fun hhas => ?_⟩, default ++ defaults, ?_, ?_⟩
    · rwa [append_assoc] at hall
    · rw [hheaders, append_assoc]
    · rw [if_pos hhas] at hheader
      exact .cons hwidth hheader (hheaderTail hhas)
    · rw [hdefaults, append_assoc]
    · exact .cons hwidth hdefault hdefaultTail

/-- A record's own values, with the column's text where it has none. -/
theorem renderOwn_ok {range : ByteRange} {isHeader : Bool} {start : ℕ} :
    ∀ (columns : List AppendedColumn) (index : ℕ) {bytes : Bytes},
    renderOwn renderer range isHeader index columns
      (columns.map (AppendedColumn.valueAt start)) = .ok bytes →
    RenderedTail renderer (appendedValues columns isHeader start) bytes := by
  intro columns
  induction columns with
  | nil =>
    intro index bytes h
    cases h
    exact .nil renderer
  | cons column rest ih =>
    intro index bytes h
    rw [map_cons] at h
    show RenderedTail renderer ((column.valueAt start).getD _ :: _) bytes
    cases hvalue : column.valueAt start with
    | none | some value =>
      simp only [hvalue] at h
      obtain ⟨rendered, hrendered, h⟩ := bind_eq_ok.mp h
      obtain ⟨following, hfollowing, h⟩ := bind_eq_ok.mp h
      cases h
      exact .cons hwidth hrendered (ih _ hfollowing)

variable {columns : List AppendedColumn}

omit hwidth in
theorem planOwnValues_ok {headerStart : Option ℕ} :
    ∀ (entries : List (ℕ × ByteRange × List (Option Text))) (records : PlannedRecords),
    planOwnValues renderer bounds headerStart columns entries records = .ok after →
    (entries.Pairwise fun a b => a.1 < b.1) →
    (∀ entry ∈ entries, entry.2.1.start = entry.1 ∧ named entry.2.1) → Names named records →
    Names named after ∧
    (∀ k, (∀ entry ∈ entries, entry.1 ≠ k) → editsAt after k = editsAt records k) ∧
    ∀ k range values, (k, range, values) ∈ entries →
      if (editsAt records k).action = .keep then
        ∃ bytes, renderOwn renderer range (decide (headerStart = some k)) 0 columns values =
            .ok bytes ∧
          editsAt after k = { editsAt records k with appended := some bytes }
      else editsAt after k = editsAt records k := by
  intro entries
  induction entries with
  | nil =>
    intro records h _ _ hnames
    cases h
    exact ⟨hnames, fun k _ => rfl, fun k range values hmem => by cases hmem⟩
  | cons entry rest ih =>
    obtain ⟨start, range, values⟩ := entry
    intro records h hsorted hentries hnames
    obtain ⟨hfirst, hrestSorted⟩ := pairwise_cons.mp hsorted
    obtain ⟨⟨hstart, hrange⟩, hothers⟩ := forall_mem_cons.mp hentries
    dsimp only at hstart hrange hfirst
    subst hstart
    have hother : ∀ entry ∈ rest, entry.1 ≠ range.start := fun e he => (hfirst e he).ne'
    obtain ⟨record, hrecord, h⟩ := bind_eq_ok.mp h
    obtain ⟨hedits, hset⟩ := plannedRecord_ok hrecord
    -- one more entry, whatever it was set to
    suffices hstep : ∃ updated : RecordPlan, updated.finish = record.finish ∧
        planOwnValues renderer bounds headerStart columns rest
          (records.set range.start updated) = .ok after ∧
        if record.action = .keep then
          ∃ bytes, renderOwn renderer range (decide (headerStart = some range.start)) 0 columns
              values = .ok bytes ∧ updated.edits = { record.edits with appended := some bytes }
        else updated.edits = record.edits by
      obtain ⟨updated, hupdated, hrun, hentry⟩ := hstep
      obtain ⟨hafter, hsame, hin⟩ := ih _ hrun hrestSorted hothers (hset hupdated hnames hrange)
      refine ⟨hafter, fun k hk => ?_, fun k range' values' hmem => ?_⟩
      · rw [hsame k fun e he => hk e (mem_cons_of_mem _ he), editsAt_set,
          if_neg (hk _ mem_cons_self).symm]
      · rcases mem_cons.mp hmem with heq | hrest
        · cases heq
          rwa [hsame _ hother, editsAt_set, if_pos rfl, ← hedits]
        · have := hin k range' values' hrest
          rwa [editsAt_set, if_neg (hother _ hrest)] at this
    by_cases hkeep : record.action = .keep
    · rw [if_neg (not_not.mpr hkeep)] at h
      obtain ⟨bytes, hbytes, h⟩ := bind_eq_ok.mp h
      exact ⟨{ record with appended := some bytes }, rfl, h, by
        rw [if_pos hkeep]
        exact ⟨bytes, hbytes, rfl⟩⟩
    · rw [if_pos hkeep] at h
      exact ⟨record, rfl, h, by rw [if_neg hkeep]⟩

/-- The appended fields of a kept record: its entry's own, or the ones all
records like it inherit. -/
def appendedBytes (fields : AppendedFields) (headerStart : Option ℕ) (edits : RecordEdits)
    (start : ℕ) : Bytes :=
  edits.appended.getD (if headerStart = some start then fields.header else fields.default)

omit hwidth in
/-- The loop over all collected values: a record for which no column has a value keeps
its entry. -/
theorem planCollected_ok {headerStart : Option ℕ} {own : OwnValues}
    (h : planOwnValues renderer bounds headerStart columns own.entries records = .ok after)
    (hcollected : Collected own columns.length columns) (hown : OwnNames named own)
    (hnames : Names named records) :
    Names named after ∧ ∀ k,
      (editsAt after k = editsAt records k ∧ ∀ column ∈ columns, column.valueAt k = none) ∨
      ∃ range, if (editsAt records k).action = .keep then
          ∃ bytes, renderOwn renderer range (decide (headerStart = some k)) 0 columns
              (columns.map (AppendedColumn.valueAt k)) = .ok bytes ∧
            editsAt after k = { editsAt records k with appended := some bytes }
        else editsAt after k = editsAt records k := by
  obtain ⟨hafter, hother, hentry⟩ := planOwnValues_ok own.entries records h own.sorted
    (fun e he => hown _ _ _ ((own.mem_entries_iff e.1 e.2).mp he)) hnames
  refine ⟨hafter, fun k => ?_⟩
  have hvalues : valuesAt own columns.length k = columns.map (AppendedColumn.valueAt k) := by
    rw [hcollected k, Nat.sub_self, replicate_zero, append_nil]
  unfold valuesAt at hvalues
  cases hget : own.get? k with rw [hget] at hvalues
  | none =>
    refine .inl ⟨?_, fun column hcolumn => ?_⟩
    · rw [hother k]
      rintro ⟨k', entry⟩ hmem rfl
      rw [own.mem_entries_iff, hget] at hmem
      cases hmem
    · have hmem := mem_map_of_mem (f := AppendedColumn.valueAt k) hcolumn
      rw [← hvalues] at hmem
      exact eq_of_mem_replicate hmem
  | some entry =>
    have hk := hentry k entry.1 entry.2 ((own.mem_entries_iff _ _).mpr hget)
    rw [show entry.2 = _ from hvalues] at hk
    exact .inr ⟨entry.1, hk⟩

omit hwidth in
/-- Without a value of its own a record inherits the header or the default. -/
theorem appendedValues_of_none {isHeader : Bool} {k : ℕ}
    (hno : ∀ column ∈ columns, column.valueAt k = none) : appendedValues columns isHeader k =
      columns.map fun column => if isHeader then column.header else column.defaultValue := by
  refine map_congr_left fun column hcolumn => ?_
  rw [hno column hcolumn, Option.getD_none]

theorem planAppendedColumns_ok {headerStart : Option ℕ} {appended : Option AppendedFields}
    (h : planAppendedColumns renderer bounds headerStart columns records = .ok (appended, after))
    (hnames : Names named records)
    (hnamed : ∀ column ∈ columns, ∀ value ∈ column.values, named value.1)
    (hnone : ∀ k, (editsAt records k).appended = none) :
    Names named after ∧ (columns = [] ↔ appended = none) ∧
    (∀ k, (editsAt after k).action = (editsAt records k).action ∧
      (editsAt after k).insertedBefore = (editsAt records k).insertedBefore) ∧
    ∀ fields ∈ appended, ∀ k, (editsAt records k).action = .keep →
      RenderedTail renderer (appendedValues columns (decide (headerStart = some k)) k)
        (appendedBytes fields headerStart (editsAt after k) k) := by
  unfold planAppendedColumns at h
  by_cases hcolumns : columns = []
  · subst hcolumns
    obtain ⟨rfl, rfl⟩ := Prod.mk.inj (Except.ok.inj h)
    exact ⟨hnames, by simp, fun k => ⟨rfl, rfl⟩, fun fields hfields => by cases hfields⟩
  · rw [if_neg (by simpa using hcolumns)] at h
    obtain ⟨⟨fields, records', own⟩, hplanned, h⟩ := bind_eq_ok.mp h
    obtain ⟨records'', hown, h⟩ := bind_eq_ok.mp h
    obtain ⟨rfl, rfl⟩ := Prod.mk.inj (Except.ok.inj h)
    have hstart : Collected (.empty : OwnValues) columns.length [] := fun k => rfl
    obtain ⟨hnames', hownNames, hsame, hcollected, ⟨header, hheader, hheaderTail⟩, default,
      hdefault, hdefaultTail⟩ := planColumns_ok hwidth columns [] _ records _ hplanned
        (Nat.zero_add _) hstart hnames (fun k range values hk => by cases hk) hnamed
    rw [nil_append] at hcollected hheader hdefault
    obtain ⟨hafter, hcases⟩ := planCollected_ok hown hcollected hownNames hnames'
    simp only [hsame] at hcases
    refine ⟨hafter, by simp [hcolumns], fun k => ?_, ?_⟩
    · rcases hcases k with ⟨heq, -⟩ | ⟨range, hk⟩
      · rw [heq]
        exact ⟨rfl, rfl⟩
      · split_ifs at hk
        · obtain ⟨bytes, -, heq⟩ := hk
          rw [heq]
          exact ⟨rfl, rfl⟩
        · rw [hk]
          exact ⟨rfl, rfl⟩
    · rintro fields' ⟨⟩ k hkeep
      rcases hcases k with ⟨heq, hno⟩ | ⟨range, hk⟩
      · rw [appendedBytes, heq, hnone k, Option.getD_none, appendedValues_of_none hno]
        by_cases hk : headerStart = some k
        · simp only [hk, decide_true, if_true, hheader]
          exact hheaderTail (by rw [hk]; rfl)
        · simp only [hk, decide_false, Bool.false_eq_true, if_false, hdefault]
          exact hdefaultTail
      · rw [if_pos hkeep] at hk
        obtain ⟨bytes, hbytes, heq⟩ := hk
        rw [appendedBytes, heq]
        exact renderOwn_ok hwidth columns 0 hbytes

omit hwidth

end Loops

/-! ## The whole plan -/

/-- The plan holds what the edits say about every record. -/
structure PlanFor (edits : EditSet) (renderer : Renderer) (headerStart : Option ℕ) (plan : Plan) :
    Prop where
  named : ∀ k record, plan.records.get? k = some record → ⟨k, record.finish⟩ ∈ edits.ranges
  replaced : ∀ k fields, edits.replacementAt k = some fields → edits.deletesAt k = false ∧
    ∃ bytes, Rendered renderer fields bytes ∧ (editsAt plan.records k).action = .replace bytes
  deleted : ∀ k, edits.deletesAt k = true → (editsAt plan.records k).action = .delete
  kept : ∀ k, edits.replacementAt k = none → edits.deletesAt k = false →
    (editsAt plan.records k).action = .keep
  inserted : ∀ k, List.Forall₂ (Rendered renderer) (edits.insertionsBefore k)
    (editsAt plan.records k).insertedBefore
  atEnd : List.Forall₂ (Rendered renderer) edits.insertionsAtEnd plan.insertedAtEnd
  columns : edits.appendedColumns = [] ↔ plan.appended = none
  appended : ∀ fields ∈ plan.appended, ∀ k, (editsAt plan.records k).action = .keep →
    RenderedTail renderer (appendedValues edits.appendedColumns (decide (headerStart = some k)) k)
      (appendedBytes fields headerStart (editsAt plan.records k) k)

variable {edits : EditSet} {renderer : Renderer} {plan : Plan} {headerStart : Option ℕ}

/-- The three things a plan can say about a record itself. -/
theorem PlanFor.action_cases
    (h : PlanFor edits renderer headerStart plan) (k : ℕ) :
    (∃ fields bytes, edits.replacementAt k = some fields ∧ edits.deletesAt k = false ∧
      Rendered renderer fields bytes ∧ (editsAt plan.records k).action = .replace bytes) ∨
    (edits.replacementAt k = none ∧ edits.deletesAt k = true ∧
      (editsAt plan.records k).action = .delete) ∨
    (edits.replacementAt k = none ∧ edits.deletesAt k = false ∧
      (editsAt plan.records k).action = .keep) := by
  cases hreplaced : edits.replacementAt k with
  | some fields =>
    obtain ⟨hnot, bytes, hbytes, haction⟩ := h.replaced k fields hreplaced
    exact .inl ⟨fields, bytes, rfl, hnot, hbytes, haction⟩
  | none =>
    cases hdeleted : edits.deletesAt k with
    | true => exact .inr (.inl ⟨rfl, rfl, h.deleted k hdeleted⟩)
    | false => exact .inr (.inr ⟨rfl, rfl, h.kept k hreplaced hdeleted⟩)

theorem PlanFor.keeps (h : PlanFor edits renderer headerStart plan)
    {k : ℕ} (hkeep : (editsAt plan.records k).action = .keep) :
    edits.replacementAt k = none ∧ edits.deletesAt k = false := by
  rcases h.action_cases k with ⟨_, _, -, -, -, hother⟩ | ⟨-, -, hother⟩ | ⟨hreplaced, hdeleted, -⟩
  · cases hkeep.symm.trans hother
  · cases hkeep.symm.trans hother
  · exact ⟨hreplaced, hdeleted⟩

/-- What the loops over the replacements and the deletions leave of an entry:
`before` stands after the first loop, `after` after the second. -/
structure OwnActions (edits : EditSet) (renderer : Renderer) (before after : PlannedRecords) :
    Prop where
  replaced : ∀ k, match edits.replacementAt k with
    | none => editsAt before k = .none
    | some fields => ∃ bytes, Rendered renderer fields bytes ∧
        editsAt before k = { RecordEdits.none with action := .replace bytes }
  deleted : ∀ k, if edits.deletesAt k = true then
      (editsAt before k).action = .keep ∧
        editsAt after k = { editsAt before k with action := .delete }
    else editsAt after k = editsAt before k

namespace OwnActions

variable {before after : PlannedRecords} (h : OwnActions edits renderer before after) {k : ℕ}
include h

/-- Neither loop inserts or appends. -/
theorem nothing_else (k : ℕ) :
    (editsAt after k).insertedBefore = [] ∧ (editsAt after k).appended = none := by
  have hbefore : (editsAt before k).insertedBefore = [] ∧ (editsAt before k).appended = none := by
    have hk := h.replaced k
    split at hk
    · rw [hk]
      exact ⟨rfl, rfl⟩
    · obtain ⟨bytes, -, hk⟩ := hk
      rw [hk]
      exact ⟨rfl, rfl⟩
  have hk := h.deleted k
  split_ifs at hk with hdelete
  · rw [hk.2]
    exact hbefore
  · rw [hk]
    exact hbefore

/-- A replaced record is not deleted as well. -/
theorem replace {fields : List Text} (hfields : edits.replacementAt k = some fields) :
    edits.deletesAt k = false ∧
      ∃ bytes, Rendered renderer fields bytes ∧ (editsAt after k).action = .replace bytes := by
  have hreplaced := h.replaced k
  rw [hfields] at hreplaced
  obtain ⟨bytes, hbytes, hreplaced⟩ := hreplaced
  have hdeleted := h.deleted k
  have hnot : edits.deletesAt k = false := by
    by_contra hdelete
    rw [if_pos (Bool.not_eq_false _ ▸ hdelete), hreplaced] at hdeleted
    cases hdeleted.1
  refine ⟨hnot, bytes, hbytes, ?_⟩
  rw [if_neg (Bool.eq_false_iff.mp hnot)] at hdeleted
  rw [hdeleted, hreplaced]

theorem delete (hdelete : edits.deletesAt k = true) : (editsAt after k).action = .delete := by
  have hdeleted := h.deleted k
  rw [if_pos hdelete] at hdeleted
  rw [hdeleted.2]

theorem keep (hfields : edits.replacementAt k = none) (hdelete : edits.deletesAt k = false) :
    (editsAt after k).action = .keep := by
  have hreplaced := h.replaced k
  rw [hfields] at hreplaced
  have hdeleted := h.deleted k
  rw [if_neg (Bool.eq_false_iff.mp hdelete)] at hdeleted
  rw [hdeleted, hreplaced]
  rfl

end OwnActions

/-- **The plan is the edits.** -/
theorem Plan.build_ok {bounds : ByteRange}
    (hwidth : renderer.layout.width = renderer.encoding.width)
    (h : Plan.build edits renderer bounds headerStart = .ok plan) :
    PlanFor edits renderer headerStart plan := by
  obtain ⟨replacements, hreplacements, h⟩ := bind_eq_ok.mp h
  obtain ⟨deletions, hdeletions, h⟩ := bind_eq_ok.mp h
  obtain ⟨⟨insertions, atEnd⟩, hinsertions, h⟩ := bind_eq_ok.mp h
  obtain ⟨⟨appended, records⟩, happended, h⟩ := bind_eq_ok.mp h
  obtain ⟨_, -, h⟩ := bind_eq_ok.mp h
  cases h
  have hstart : Names (· ∈ edits.ranges) (OrderedMap.empty : PlannedRecords) :=
    fun k record hk => by cases hk
  obtain ⟨hnames₁, hreplaced⟩ := planReplacements_ok _ _ hreplacements hstart
    fun replacement hmem => by
      simp only [EditSet.ranges, mem_append, mem_map]
      exact .inl (.inl (.inl ⟨replacement, hmem, rfl⟩))
  obtain ⟨hnames₂, hdeleted⟩ := planDeletions_ok _ _ hdeletions hnames₁ fun range hmem => by
    simp only [EditSet.ranges, mem_append]
    exact .inl (.inl (.inr hmem))
  obtain ⟨hnames₃, hinserted, rendered, hall, rfl⟩ := planInsertions_ok _ _ _ _ hinsertions
    hnames₂ fun range hmem => by
      simp only [EditSet.ranges, mem_append]
      exact .inl (.inr hmem)
  have hown : OwnActions edits renderer replacements deletions := by
    refine ⟨fun k => ?_, hdeleted⟩
    have hk := hreplaced k
    unfold EditSet.replacementAt
    cases hfind : edits.replacements.find?
        (fun replacement => decide (replacement.byteRange.start = k)) with rw [hfind] at hk
    | none => exact hk
    | some replacement => exact hk.2
  have hnone : ∀ k, (editsAt insertions k).appended = none := by
    intro k
    obtain ⟨_, -, hk⟩ := hinserted k
    rw [hk]
    exact (hown.nothing_else k).2
  obtain ⟨hnames₄, hcolumns, hsame, htail⟩ := planAppendedColumns_ok hwidth happended hnames₃
    (fun column hcolumn value hvalue => by
      simp only [EditSet.ranges, mem_append, mem_flatMap, mem_map]
      exact .inr ⟨column, hcolumn, value, hvalue, rfl⟩) hnone
  -- the last two loops leave the action as it is
  have haction : ∀ k, (editsAt records k).action = (editsAt deletions k).action := by
    intro k
    obtain ⟨_, -, hk⟩ := hinserted k
    rw [(hsame k).1, hk]
  refine ⟨hnames₄, fun k fields hfields => ?_, fun k hdelete => ?_, fun k hfields hdelete => ?_,
    fun k => ?_, hall, hcolumns, fun fields hfields k hkeep => ?_⟩
  · rw [haction]
    exact hown.replace hfields
  · rw [haction]
    exact hown.delete hdelete
  · rw [haction]
    exact hown.keep hfields hdelete
  · obtain ⟨bytes, hbytes, hk⟩ := hinserted k
    rw [(hsame k).2, hk]
    rw [(hown.nothing_else k).1]
    exact hbytes
  · exact htail fields hfields k (by rw [← (hsame k).1]; exact hkeep)

end Dbflux.Delimited

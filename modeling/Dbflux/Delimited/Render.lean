import Dbflux.Delimited.Shape

/-!
# Rendered fields read back

`Renderer::field`, `Renderer::record` and `Renderer::appended_field`
(`dbflux_delimited/src/writer.rs`, lines 841–944) turn texts into bytes
that the reader's scanner splits into exactly the encoded texts again.

Results:
* `field_renders`: a rendered field is one field to the scanner.
* `record_renders`: a rendered record is a body with the encoded fields.
* `RendersRecord.append`: fields appended to a body are added after its own.
* `record_not_mark`: a rendered record never starts like a byte-order mark.
-/

namespace Dbflux.Delimited

open Lib List
open Encoding (width)
open UnitWidth (bound unitBytes toNat_ofNat_of_lt units_flatMap size)

variable {layout : Layout} {encoding : Encoding}

/-- Decoding an encoded text gives the text back. -/
def Encoding.Faithful (encoding : Encoding) : Prop :=
  ∀ text bytes, encodeText encoding text = .ok bytes → (encoding.decode bytes).1 = text

/-! ## Encoded texts -/

theorem encodeText_nil (encoding : Encoding) : encodeText encoding [] = .ok [] := by
  unfold encodeText
  cases encoding.kind <;> rfl

variable {text : Text} {bytes rendered tail : Bytes} {us : List ℕ} {quote : ℕ} {r : Renderer}
  {isOnlyField : Bool} {location : EditLocation} {fields : List Text} {dialect : Dialect} {c : Char}

theorem toNat_lt (c : Char) : c.toNat < 0x110000 := by
  rcases c.valid with h | ⟨-, h⟩
  · exact lt_trans h (by decide)
  · exact h

theorem mem_utf16Units_lt (text : Text) : ∀ u ∈ text.flatMap utf16Units, u < 65536 := by
  intro u hu
  obtain ⟨c, -, hu⟩ := mem_flatMap.mp hu
  have hc := toNat_lt c
  unfold utf16Units at hu
  split_ifs at hu with hlt
  · rw [mem_singleton.mp hu]
    exact hlt
  · simp only [mem_cons, not_mem_nil, or_false] at hu
    omega

/-- An encoded text is made of whole code units. -/
theorem encodeText_whole (h : encodeText encoding text = .ok bytes) :
    encoding.width.size ∣ bytes.length := by
  unfold encodeText at h
  unfold width
  have hlt := mem_utf16Units_lt text
  cases hkind : encoding.kind with
  | utf16LE =>
    simp only [hkind, Except.ok.injEq] at h
    rw [← h, UnitWidth.flatMap_unitBytes_length .utf16LittleEndian hlt]
    exact Nat.dvd_mul_right _ _
  | utf16BE =>
    simp only [hkind, Except.ok.injEq] at h
    rw [← h, UnitWidth.flatMap_unitBytes_length .utf16BigEndian hlt]
    exact Nat.dvd_mul_right _ _
  | _ => exact Nat.one_dvd _

/-! ## A rendered field -/

/-- From the start of a field the scanner reads `rendered` as one field that
holds `encoded`, and ends in an open state. -/
structure RendersField (layout : Layout) (rendered encoded : Bytes) : Prop where
  whole : layout.width.size ∣ rendered.length
  scan : ∃ state, advance layout .fieldStart (layout.width.units rendered) = some state ∧
    state.IsOpen ∧ gather layout .fieldStart [] (layout.width.units rendered) = ([], encoded)

/-- Units none of which is structural are literal text. -/
theorem scan_plain (h : ∀ u ∈ us, Renderer.isStructural layout u = false) :
    ∀ (state : ScanState) (current : Bytes), state = .fieldStart ∨ state = .unquoted →
    ∃ state', advance layout state us = some state' ∧ (state' = .fieldStart ∨ state' = .unquoted) ∧
      gather layout state current us = ([], current ++ us.flatMap layout.width.unitBytes) := by
  induction us with intro state current hstate
  | nil =>
    exact ⟨state, rfl, hstate, by simp [gather]⟩
  | cons u us ih =>
    have hu := h u mem_cons_self
    simp only [Renderer.isStructural, Bool.or_eq_false_iff, decide_eq_false_iff_not] at hu
    obtain ⟨⟨⟨hdelimiter, hquote⟩, hlf⟩, hcr⟩ := hu
    have hstep : step layout state u = (.unquoted, .literal) := by
      rcases hstate with rfl | rfl <;> simp [step, hlf, hcr, hdelimiter, Ne.symm hquote]
    obtain ⟨state', hadv, hstate', hgather⟩ := ih (fun v hv => h v (mem_cons_of_mem _ hv))
      .unquoted (current ++ layout.width.unitBytes u) (.inr rfl)
    refine ⟨state', ?_, hstate', ?_⟩
    · rw [advance_cons, hstep]
      exact ⟨trivial, hadv⟩
    · rw [gather, hstep, flatMap_cons, ← append_assoc]
      exact hgather

variable {encoded : Bytes}

theorem rendersField_plain (hwhole : layout.width.size ∣ encoded.length)
    (h : (layout.width.units encoded).any (Renderer.isStructural layout) = false) :
    RendersField layout encoded encoded := by
  have hplain : ∀ u ∈ layout.width.units encoded, Renderer.isStructural layout u = false := by
    simpa using h
  obtain ⟨state, hadv, hstate, hgather⟩ := scan_plain hplain .fieldStart [] (.inl rfl)
  refine ⟨hwhole, state, hadv, ?_, ?_⟩
  · rcases hstate with rfl | rfl <;> trivial
  · rw [hgather, nil_append, ← eq_flatMap_units hwhole]

/-- The units of a field with every quote doubled. -/
def doubled (quote : ℕ) (us : List ℕ) : List ℕ :=
  us.flatMap fun u => if u = quote then [quote, u] else [u]

theorem doubled_cons (quote u : ℕ) (us : List ℕ) :
    doubled quote (u :: us) = (if u = quote then [quote, u] else [u]) ++ doubled quote us := rfl

theorem quoted_eq (width : UnitWidth) (quote : ℕ) (us : List ℕ) : Renderer.quoted width quote us =
      (quote :: doubled quote us ++ [quote]).flatMap width.unitBytes := by
  have hbody : us.flatMap (fun u => if u = quote then width.unitBytes quote ++ width.unitBytes u
      else width.unitBytes u) = (doubled quote us).flatMap width.unitBytes := by
    induction us with
    | nil => rfl
    | cons u us ih =>
      rw [flatMap_cons, ih, doubled_cons, flatMap_append]
      split_ifs <;> simp
  simp [Renderer.quoted, hbody, flatMap_cons, flatMap_append]

/-- Inside quotes the scanner undoes the doubling. -/
theorem scan_doubled (hquote : layout.quote = some quote) (us : List ℕ) :
    ∀ current : Bytes, advance layout .quoted (doubled quote us) = some .quoted ∧
      gather layout .quoted current (doubled quote us) =
        ([], current ++ us.flatMap layout.width.unitBytes) := by
  have hne := layout.quote_ne quote hquote
  have hclose : step layout .quoted quote = (.quoteInQuoted, .structural) := by
    simp [step, hquote]
  have hagain : step layout .quoteInQuoted quote = (.quoted, .literal) := by
    simp [step, hquote, hne.1, hne.2.1, hne.2.2]
  induction us with
  | nil =>
    intro current
    exact ⟨rfl, by simp [doubled, gather]⟩
  | cons u us ih =>
    intro current
    obtain ⟨hadv, hgather⟩ := ih (current ++ layout.width.unitBytes u)
    rw [flatMap_cons, ← append_assoc, ← hgather]
    by_cases hu : u = quote
    · subst hu
      rw [doubled_cons, if_pos rfl]
      constructor
      · rw [cons_append, advance_cons, hclose]
        refine ⟨trivial, ?_⟩
        rw [singleton_append, advance_cons, hagain]
        exact ⟨trivial, hadv⟩
      · simp [gather, hclose, hagain]
    · have hother : step layout .quoted u = (.quoted, .literal) := by
        simp [step, hquote, Ne.symm hu]
      rw [doubled_cons, if_neg hu, singleton_append]
      constructor
      · rw [advance_cons, hother]
        exact ⟨trivial, hadv⟩
      · simp [gather, hother]

theorem quote_lt_bound (hquote : layout.quote = some quote) : quote < layout.width.bound := by
  have := layout.quote_lt quote hquote
  cases layout.width <;> simp only [bound] <;> omega

theorem delimiter_lt_bound (layout : Layout) : layout.delimiter < layout.width.bound := by
  have := layout.delimiter_lt
  cases layout.width <;> simp only [bound] <;> omega

theorem unitBytes_append_ne_nil {width : UnitWidth} {unit : ℕ} (h : unit < width.bound)
    (rest : Bytes) : width.unitBytes unit ++ rest ≠ [] := by
  have hlength := width.unitBytes_length h
  have hsize := width.size_pos
  intro hnil
  rw [(append_eq_nil_iff.mp hnil).1, length_nil] at hlength
  omega

theorem mem_doubled_lt {n : ℕ} (hquote : quote < n) (hus : ∀ u ∈ us, u < n) :
    ∀ u ∈ doubled quote us, u < n := by
  intro u hu
  obtain ⟨v, hv, hmem⟩ := mem_flatMap.mp hu
  have := hus v hv
  split_ifs at hmem
  · simp only [mem_cons, not_mem_nil, or_false] at hmem
    rcases hmem with rfl | rfl <;> assumption
  · rw [mem_singleton.mp hmem]
    exact this

theorem rendersField_quoted (hquote : layout.quote = some quote)
    (hwhole : layout.width.size ∣ encoded.length) :
    RendersField layout (Renderer.quoted layout.width quote (layout.width.units encoded)) encoded := by
  set us := layout.width.units encoded with hus
  have hlt : ∀ u ∈ quote :: doubled quote us ++ [quote], u < layout.width.bound := by
    have hq := quote_lt_bound hquote
    intro u hu
    simp only [cons_append, mem_cons, mem_append, not_mem_nil, or_false] at hu
    rcases hu with rfl | hu | rfl
    · exact hq
    · exact mem_doubled_lt hq (fun v hv => layout.width.mem_units_lt hv) u hu
    · exact hq
  have hunits : layout.width.units (Renderer.quoted layout.width quote us) =
      quote :: doubled quote us ++ [quote] := by
    have := layout.width.units_flatMap hlt []
    rwa [append_nil, layout.width.units_nil, append_nil, ← quoted_eq] at this
  have hne := layout.quote_ne quote hquote
  have hstart : step layout .fieldStart quote = (.quoted, .structural) := by
    simp [step, hquote, hne.1, hne.2.1, hne.2.2]
  have hclose : step layout .quoted quote = (.quoteInQuoted, .structural) := by
    simp [step, hquote]
  obtain ⟨hadv, hgather⟩ := scan_doubled hquote us []
  refine ⟨?_, .quoteInQuoted, ?_, trivial, ?_⟩
  · rw [quoted_eq, layout.width.flatMap_unitBytes_length hlt]
    exact Nat.dvd_mul_right _ _
  · rw [hunits, cons_append, advance_cons, hstart]
    refine ⟨trivial, ?_⟩
    rw [advance_append hadv, advance_cons, hclose]
    exact ⟨trivial, rfl⟩
  · rw [hunits, cons_append, gather, hstart]
    simp only
    rw [(gather_append [] hadv _).1, hgather, nil_append, ← eq_flatMap_units hwhole]
    simp [gather, hclose]

/-- A rendered field is one field to the scanner. -/
theorem field_renders (hwidth : r.layout.width = r.encoding.width) {index : ℕ}
    (h : r.field text isOnlyField location index = .ok rendered) :
    ∃ encoded, encodeText r.encoding text = .ok encoded ∧ RendersField r.layout rendered encoded ∧
      (isOnlyField = true → text = [] → rendered ≠ []) ∧
      (rendered = encoded ∧ text.head? ≠ some zeroWidthNoBreak ∨
        ∃ quote rest, r.layout.quote = some quote ∧
          rendered = r.layout.width.unitBytes quote ++ rest) := by
  unfold Renderer.field at h
  cases hencode : encodeText r.encoding text with
  | error e => simp [hencode] at h
  | ok encoded =>
    have hwhole : r.layout.width.size ∣ encoded.length := hwidth ▸ encodeText_whole hencode
    simp only [hencode] at h
    refine ⟨encoded, rfl, ?_⟩
    cases hquote : r.layout.quote with simp only [hquote] at h
    | none =>
      split_ifs at h with hrefused
      cases h
      simp only [Bool.or_eq_true, not_or, Bool.not_eq_true, decide_eq_false_iff_not] at hrefused
      obtain ⟨⟨hplain, honly⟩, hmark⟩ := hrefused
      refine ⟨rendersField_plain hwhole hplain, ?_, .inl ⟨rfl, hmark⟩⟩
      intro hfield htext
      rw [hfield, htext] at honly
      cases honly
    | some quote =>
      split_ifs at h with hplain
      · cases h
        simp only [Bool.not_eq_true', Bool.or_eq_false_iff, decide_eq_false_iff_not] at hplain
        obtain ⟨⟨⟨hplain, -⟩, honly⟩, hmark⟩ := hplain
        refine ⟨rendersField_plain hwhole hplain, ?_, .inl ⟨rfl, hmark⟩⟩
        intro hfield htext
        rw [hfield, htext] at honly
        cases honly
      · cases h
        refine ⟨rendersField_quoted hquote hwhole, fun _ _ => ?_,
          .inr ⟨quote, _, rfl, append_assoc _ _ _⟩⟩
        rw [Renderer.quoted, append_assoc]
        exact unitBytes_append_ne_nil (quote_lt_bound hquote) _

/-! ## Appended fields -/

/-- Wherever a field can end, the scanner reads `rendered` as the end of that
field and further fields that hold `encoded`. -/
structure RendersTail (layout : Layout) (rendered : Bytes) (encoded : List Bytes) : Prop where
  whole : layout.width.size ∣ rendered.length
  starts : encoded ≠ [] → ∃ rest, rendered = layout.width.unitBytes layout.delimiter ++ rest
  scan : ∀ (state : ScanState) (current : Bytes), state.IsOpen →
    ∃ state', advance layout state (layout.width.units rendered) = some state' ∧ state'.IsOpen ∧
      (gather layout state current (layout.width.units rendered)).1 ++
        [(gather layout state current (layout.width.units rendered)).2] = current :: encoded

theorem RendersTail.nil : RendersTail layout [] [] := by
  refine ⟨Nat.dvd_zero _, fun hne => absurd rfl hne, fun state current hopen =>
    ⟨state, ?_, hopen, ?_⟩⟩
  all_goals
    rw [layout.width.units_nil]
    rfl

variable {rest : List Bytes}

theorem RendersTail.cons (hfield : RendersField layout rendered encoded)
    (htail : RendersTail layout tail rest) :
    RendersTail layout (layout.width.unitBytes layout.delimiter ++ rendered ++ tail)
      (encoded :: rest) := by
  have hdelimiter := layout.width.unitBytes_length (delimiter_lt_bound layout)
  have hunits : layout.width.units (layout.width.unitBytes layout.delimiter ++ rendered ++ tail) =
      layout.delimiter :: (layout.width.units rendered ++ layout.width.units tail) := by
    rw [append_assoc, layout.width.units_append _ (hdelimiter ▸ Nat.dvd_refl _),
      layout.width.units_unitBytes (delimiter_lt_bound layout),
      layout.width.units_append _ hfield.whole]
    rfl
  refine ⟨?_, fun _ => ⟨rendered ++ tail, append_assoc _ _ _⟩, fun state current hopen => ?_⟩
  · rw [length_append, length_append, hdelimiter]
    exact Nat.dvd_add (Nat.dvd_add (Nat.dvd_refl _) hfield.whole) htail.whole
  · obtain ⟨mid, hadv, hmid, hgather⟩ := hfield.scan
    obtain ⟨last, hadv', hlast, hgather'⟩ := htail.scan mid encoded hmid
    refine ⟨last, ?_, hlast, ?_⟩
    · rw [hunits, advance_cons, step_delimiter hopen]
      exact ⟨trivial, (advance_append hadv).trans hadv'⟩
    · rw [hunits, gather, step_delimiter hopen]
      simp only
      rw [(gather_append [] hadv _).1, hgather]
      simp [hgather']

/-- The texts and their encoded forms. -/
abbrev Encodes (encoding : Encoding) : List Text → List Bytes → Prop :=
  List.Forall₂ fun text bytes => encodeText encoding text = .ok bytes

theorem recordFrom_cons {index : ℕ} {rest : List Text}
    (h : r.recordFrom isOnlyField location index (text :: rest) = .ok rendered) :
    ∃ field following, r.field text isOnlyField location index = .ok field ∧
      r.recordFrom isOnlyField location (index + 1) rest = .ok following ∧
      rendered = (if index > 0 then r.layout.width.unitBytes r.layout.delimiter else []) ++
        field ++ following := by
  rw [Renderer.recordFrom, bind_eq_ok] at h
  obtain ⟨field, hfield, h⟩ := h
  obtain ⟨following, hfollowing, h⟩ := bind_eq_ok.mp h
  exact ⟨field, following, hfield, hfollowing, (Except.ok.inj h).symm⟩

variable (hwidth : r.layout.width = r.encoding.width)
include hwidth

theorem recordFrom_tail : ∀ {index : ℕ} {rendered : Bytes}, 0 < index →
    r.recordFrom isOnlyField location index fields = .ok rendered →
    ∃ encoded, Encodes r.encoding fields encoded ∧ RendersTail r.layout rendered encoded := by
  induction fields with
  | nil =>
    intro index rendered _ h
    cases h
    exact ⟨[], .nil, .nil⟩
  | cons text rest ih =>
    intro index rendered hindex h
    obtain ⟨field, following, hfield, hrest, rfl⟩ := recordFrom_cons h
    obtain ⟨encoded, hencoded, hrenders, -, -⟩ := field_renders hwidth hfield
    obtain ⟨others, hothers, htail⟩ := ih (Nat.succ_pos index) hrest
    rw [if_pos hindex]
    exact ⟨encoded :: others, .cons hencoded hothers, .cons hrenders htail⟩

/-! ## A rendered record -/

/-- The bytes are a body with the fields `encoded`. -/
structure RendersRecord (layout : Layout) (rendered : Bytes) (encoded : List Bytes) : Prop where
  whole : layout.width.size ∣ rendered.length
  isOpen : ∃ state, advance layout .fieldStart (layout.width.units rendered) = some state ∧
    state.IsOpen
  fields : bodyFields layout (layout.width.units rendered) = encoded

omit hwidth in
/-- A body with fields appended to it. -/
theorem RendersRecord.append {encoded : List Bytes} (h : RendersRecord layout rendered encoded)
    (htail : RendersTail layout tail rest) :
    RendersRecord layout (rendered ++ tail) (encoded ++ rest) := by
  obtain ⟨state, hadv, hopen⟩ := h.isOpen
  obtain ⟨state', hadv', hopen', hgather⟩ := htail.scan state
    (gather layout .fieldStart [] (layout.width.units rendered)).2 hopen
  have hunits := layout.width.units_append tail h.whole
  refine ⟨?_, ⟨state', ?_, hopen'⟩, ?_⟩
  · rw [length_append]
    exact Nat.dvd_add h.whole htail.whole
  · rw [hunits, advance_append hadv, hadv']
  · rw [hunits, bodyFields, (gather_append [] hadv _).1, append_assoc, hgather, ← h.fields,
      bodyFields, append_assoc]
    rfl

omit hwidth in
theorem RendersField.record (h : RendersField layout rendered encoded) :
    RendersRecord layout rendered [encoded] := by
  obtain ⟨state, hadv, hopen, hgather⟩ := h.scan
  exact ⟨h.whole, ⟨state, hadv, hopen⟩, by rw [bodyFields, hgather]; rfl⟩

/-- The fields a record is written from: a record without fields has one empty
field. -/
def writtenFields (fields : List Text) : List Text := if fields.isEmpty then [[]] else fields

theorem record_renders (h : r.record fields location = .ok rendered) :
    ∃ encoded, Encodes r.encoding (writtenFields fields) encoded ∧
      RendersRecord r.layout rendered encoded := by
  cases fields with
  | nil =>
    obtain ⟨encoded, hencoded, hrenders, -, -⟩ := field_renders hwidth h
    exact ⟨[encoded], .cons hencoded .nil, hrenders.record⟩
  | cons text rest =>
    obtain ⟨field, following, hfield, hrest, rfl⟩ := recordFrom_cons h
    obtain ⟨encoded, hencoded, hrenders, -, -⟩ := field_renders hwidth hfield
    obtain ⟨others, hothers, htail⟩ := recordFrom_tail hwidth Nat.one_pos hrest
    exact ⟨encoded :: others, .cons hencoded hothers, hrenders.record.append htail⟩

/-! ## How a rendered record starts -/

/-- A rendered record starts with a quote, with a delimiter, or with an encoded
text that does not start with U+FEFF. -/
inductive RecordStart (r : Renderer) (rendered : Bytes) : Prop
  | quote (quote : ℕ) (rest : Bytes) (hquote : r.layout.quote = some quote)
      (h : rendered = r.layout.width.unitBytes quote ++ rest)
  | delimiter (rest : Bytes) (h : rendered = r.layout.width.unitBytes r.layout.delimiter ++ rest)
  | text (c : Char) (cs : Text) (encoded rest : Bytes) (hc : c ≠ zeroWidthNoBreak)
      (hencoded : encodeText r.encoding (c :: cs) = .ok encoded) (h : rendered = encoded ++ rest)

theorem record_start (h : r.record fields location = .ok rendered) : RecordStart r rendered := by
  -- how a first field starts, with what follows it
  have hfirst : ∀ {text : Text} {only : Bool} {field : Bytes} (rest : Bytes),
      r.field text only location 0 = .ok field →
      (text = [] → field = [] → RecordStart r rest) → RecordStart r (field ++ rest) := by
    intro text only field rest hfield hempty
    obtain ⟨encoded, hencoded, -, -, ⟨rfl, hmark⟩ | ⟨quote, more, hquote, rfl⟩⟩ :=
      field_renders hwidth hfield
    · cases text with
      | nil =>
        rw [encodeText_nil] at hencoded
        cases hencoded
        exact hempty rfl rfl
      | cons c cs =>
        refine .text c cs field rest ?_ hencoded rfl
        rintro rfl
        exact hmark rfl
    · exact .quote quote (more ++ rest) hquote (append_assoc _ _ _)
  cases fields with
  | nil =>
    have := hfirst [] h fun _ hnil => by
      obtain ⟨_, -, -, hne, -⟩ := field_renders hwidth h
      exact absurd hnil (hne rfl rfl)
    rwa [append_nil] at this
  | cons text rest =>
    obtain ⟨field, following, hfield, hrest, rfl⟩ := recordFrom_cons h
    refine hfirst following hfield fun htext hnil => ?_
    cases rest with
    | nil =>
      obtain ⟨_, -, -, hne, -⟩ := field_renders hwidth hfield
      exact absurd hnil (hne rfl htext)
    | cons next rest =>
      -- an empty first field is followed by the delimiter
      obtain ⟨field', more, -, -, rfl⟩ := recordFrom_cons hrest
      exact .delimiter (field' ++ more) (append_assoc _ _ _)

omit hwidth

theorem record_ne_nil (hfaithful : r.encoding.Faithful) (h : RecordStart r rendered) :
    rendered ≠ [] := by
  cases h with rw [h]
  | quote quote rest hquote h => exact unitBytes_append_ne_nil (quote_lt_bound hquote) rest
  | delimiter rest h => exact unitBytes_append_ne_nil (delimiter_lt_bound r.layout) rest
  | text c cs encoded rest hc hencoded h =>
    rintro hnil
    obtain ⟨rfl, -⟩ := append_eq_nil_iff.mp hnil
    have htext := hfaithful _ _ hencoded
    rw [hfaithful _ _ (encodeText_nil _)] at htext
    cases htext

/-! ## Byte-order marks -/

variable (h : Layout.forDialect dialect = .ok layout)
include h

/-- What `Layout::for_dialect` promises of a layout it returns. -/
theorem forDialect_ok : layout.width = dialect.encoding.width ∧ (dialect.encoding.kind = .utf8 →
        layout.delimiter < 0x80 ∧ ∀ quote ∈ layout.quote, quote < 0x80) := by
  unfold Layout.forDialect at h
  split at h
  · cases h
  · split_ifs at h
    cases hcollision : dialect.collision with
    | some byte => simp [hcollision] at h
    | none =>
      simp only [hcollision, Except.ok.injEq] at h
      subst h
      refine ⟨rfl, fun hkind => ?_⟩
      have hbyte : dialect.encoding.width = .byte := by simp [width, hkind]
      rw [Dialect.collision, if_pos hbyte, find?_eq_none] at hcollision
      have hascii : ∀ byte ∈ dialect.specialBytes, byte.toNat < 0x80 := by
        intro byte hb
        have := hcollision byte hb
        simpa [isScannableByByte, hkind] using this
      refine ⟨hascii _ mem_cons_self, fun quote hquote => ?_⟩
      obtain ⟨byte, hb, rfl⟩ := Option.map_eq_some_iff.mp hquote
      exact hascii _ (mem_cons_of_mem _ (Option.mem_toList.mpr hb))

/-- A unit that no byte-order mark of the encoding holds: one of the
delimiter, the quote and the line breaks. -/
def isSpecial (encoding : Encoding) (unit : ℕ) : Prop :=
  unit < 256 ∧ (encoding.kind = .utf8 → unit < 0x80)

theorem isSpecial_delimiter : isSpecial dialect.encoding layout.delimiter :=
  ⟨layout.delimiter_lt, fun hkind => ((forDialect_ok h).2 hkind).1⟩

theorem isSpecial_quote (hquote : layout.quote = some quote) : isSpecial dialect.encoding quote :=
  ⟨layout.quote_lt quote hquote, fun hkind => ((forDialect_ok h).2 hkind).2 quote hquote⟩

omit h

/-- No byte-order mark starts with a special unit. -/
theorem not_mark_of_special {unit : ℕ} (h : isSpecial encoding unit)
    (hmark : byteOrderMark encoding ≠ []) (rest : Bytes) :
    ¬ byteOrderMark encoding <+: encoding.width.unitBytes unit ++ rest := by
  obtain ⟨hlt, hascii⟩ := h
  rintro ⟨more, hmore⟩
  unfold byteOrderMark at hmark hmore
  unfold width at hmore
  cases hkind : encoding.kind with
  | utf8 =>
    have hu := hascii hkind
    simp only [hkind, unitBytes, if_pos hlt] at hmore
    have hhead := congrArg UInt8.toNat (List.cons.inj hmore).1
    rw [toNat_ofNat_of_lt hlt] at hhead
    have : (0xEF : UInt8).toNat = 0xEF := rfl
    omega
  | utf16LE =>
    simp only [hkind, unitBytes, Nat.div_eq_of_lt hlt] at hmore
    have := (List.cons.inj (List.cons.inj hmore).2).1
    exact absurd this (by decide)
  | utf16BE =>
    simp only [hkind, unitBytes, Nat.div_eq_of_lt hlt] at hmore
    exact absurd (List.cons.inj hmore).1 (by decide)
  | _ => exact hmark (by simp [hkind])

/-- In UTF-8 only U+FEFF starts like the byte-order mark. -/
theorem utf8_mark {rest : Bytes} (h : [0xEF, 0xBB, 0xBF] <+: String.utf8EncodeChar c ++ rest) :
    c.toNat = 0xFEFF := by
  obtain ⟨more, hmore⟩ := h
  have hv : c.val.toNat = c.toNat := rfl
  have h1 : (0xEF : UInt8).toNat = 0xEF := rfl
  have h2 : (0xBB : UInt8).toNat = 0xBB := rfl
  have h3 : (0xBF : UInt8).toNat = 0xBF := rfl
  rw [String.utf8EncodeChar.eq_1, hv] at hmore
  split_ifs at hmore with hone htwo hthree
  all_goals
    obtain ⟨ha, hmore⟩ := List.cons.inj hmore
    have ha := congrArg UInt8.toNat ha
    rw [toNat_ofNat_of_lt (by omega)] at ha
  · omega
  · omega
  · obtain ⟨hb, hmore⟩ := List.cons.inj hmore
    have hb := congrArg UInt8.toNat hb
    have hc := congrArg UInt8.toNat (List.cons.inj hmore).1
    rw [toNat_ofNat_of_lt (by omega)] at hb hc
    omega
  · omega

/-- In UTF-16 only U+FEFF has the unit of the byte-order mark. -/
theorem utf16_mark (h : ∃ rest, utf16Units c ++ us = 0xFEFF :: rest) : c.toNat = 0xFEFF := by
  have hc := toNat_lt c
  obtain ⟨rest, h⟩ := h
  unfold utf16Units at h
  split_ifs at h with hlt
  · exact (List.cons.inj h).1
  · have := (List.cons.inj h).1
    omega

theorem units_utf16Mark (width : UnitWidth) {mark : Bytes} (hmark : mark <+: bytes)
    (hlen : width.size ∣ mark.length) (hunits : width.units mark = [0xFEFF]) :
    ∃ rest, width.units bytes = 0xFEFF :: rest := by
  obtain ⟨more, rfl⟩ := hmark
  exact ⟨_, by rw [width.units_append more hlen, hunits]; rfl⟩

/-- An encoded text that does not start with U+FEFF does not start like the
byte-order mark. -/
theorem not_mark_of_text {cs : Text} (hc : c ≠ zeroWidthNoBreak)
    (hencoded : encodeText encoding (c :: cs) = .ok encoded) (hmark : byteOrderMark encoding ≠ [])
    (rest : Bytes) : ¬ byteOrderMark encoding <+: encoded ++ rest := by
  intro hprefix
  have hc' : c.toNat ≠ 0xFEFF := by
    intro h
    exact hc (by rw [zeroWidthNoBreak, ← h, Char.ofNat_toNat])
  have hlt := mem_utf16Units_lt (c :: cs)
  unfold byteOrderMark at hmark hprefix
  unfold encodeText at hencoded
  cases hkind : encoding.kind with
  | utf8 =>
    simp only [hkind, Except.ok.injEq, flatMap_cons] at hencoded hprefix
    rw [← hencoded, append_assoc] at hprefix
    exact hc' (utf8_mark hprefix)
  | utf16LE =>
    simp only [hkind, Except.ok.injEq] at hencoded hprefix
    obtain ⟨more, hmore⟩ := units_utf16Mark .utf16LittleEndian hprefix (by decide) rfl
    rw [← hencoded, units_flatMap _ hlt, flatMap_cons, append_assoc] at hmore
    exact hc' (utf16_mark ⟨more, hmore⟩)
  | utf16BE =>
    simp only [hkind, Except.ok.injEq] at hencoded hprefix
    obtain ⟨more, hmore⟩ := units_utf16Mark .utf16BigEndian hprefix (by decide) rfl
    rw [← hencoded, units_flatMap _ hlt, flatMap_cons, append_assoc] at hmore
    exact hc' (utf16_mark ⟨more, hmore⟩)
  | _ => exact hmark (by simp [hkind])

theorem isSpecial_lineFeed (encoding : Encoding) : isSpecial encoding lineFeed :=
  ⟨by decide, fun _ => by decide⟩

theorem isSpecial_carriageReturn (encoding : Encoding) : isSpecial encoding carriageReturn :=
  ⟨by decide, fun _ => by decide⟩

/-- Whole units that are not the mark do not become it by a special unit. -/
theorem not_mark_append_special {p : Bytes} (hwhole : encoding.width.size ∣ p.length)
    (hp : ¬ byteOrderMark encoding <+: p) {unit : ℕ} (hunit : isSpecial encoding unit)
    (hmark : byteOrderMark encoding ≠ []) (rest : Bytes) :
    ¬ byteOrderMark encoding <+: p ++ (encoding.width.unitBytes unit ++ rest) := by
  cases p with
  | nil => exact not_mark_of_special hunit hmark rest
  | cons a p =>
    -- a mark that is not inside `p` would hold the special unit
    intro hprefix
    refine hp (prefix_of_prefix_length_le hprefix (List.prefix_append _ _) ?_)
    cases hkind : encoding.kind with
    | utf8 =>
      have hbytes : encoding.width.unitBytes unit = [UInt8.ofNat unit] := by
        simp [width, hkind, unitBytes, if_pos hunit.1]
      have hascii : (UInt8.ofNat unit).toNat < 0x80 := by
        rw [toNat_ofNat_of_lt hunit.1]
        exact hunit.2 hkind
      simp only [byteOrderMark, hkind, hbytes, cons_append, cons_prefix_cons] at hprefix ⊢
      obtain ⟨-, hprefix⟩ := hprefix
      rcases p with _ | ⟨b, _ | ⟨c, p⟩⟩
      · rw [← (cons_prefix_cons.mp hprefix).1] at hascii
        exact absurd hascii (by decide)
      · rw [← (cons_prefix_cons.mp (cons_prefix_cons.mp hprefix).2).1] at hascii
        exact absurd hascii (by decide)
      · simp
    | utf16LE | utf16BE =>
      simp only [width, byteOrderMark, hkind, size] at hwhole ⊢
      exact Nat.le_of_dvd (Nat.succ_pos _) hwhole
    | _ => exact absurd (by rw [byteOrderMark, hkind]) hmark

/-- A rendered record never starts like the byte-order mark. -/
theorem record_not_mark (h : Layout.forDialect dialect = .ok layout)
    (hstart : RecordStart ⟨layout, dialect.encoding⟩ rendered)
    (hmark : byteOrderMark dialect.encoding ≠ []) (rest : Bytes) :
    ¬ byteOrderMark dialect.encoding <+: rendered ++ rest := by
  have hwidth := (forDialect_ok h).1
  cases hstart with rw [heq, append_assoc]
  | quote quote more hquote heq =>
    simp only [hwidth]
    exact not_mark_of_special (isSpecial_quote h hquote) hmark _
  | delimiter more heq =>
    simp only [hwidth]
    exact not_mark_of_special (isSpecial_delimiter h) hmark _
  | text c cs encoded more hc hencoded heq =>
    exact not_mark_of_text hc hencoded hmark _

end Dbflux.Delimited

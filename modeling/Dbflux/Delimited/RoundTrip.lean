import Dbflux.Delimited.WriterPieces

/-!
# Rendering and scanning are inverse

`render_record` (`dbflux_delimited/src/writer.rs`, lines 502–508) gives
the bytes of one record without its terminator. The scanner reads them back:
with a terminator behind them it stops right after that, whatever follows, and
splits and decodes the record into the fields it was rendered from.

Results:
* `renderRecord_inverse`: the round trip, and that with a quote only a character
  without an encoding is refused.
-/

namespace Dbflux.Delimited

open Lib

/-- `render_record` (`writer.rs`, lines 502–508). -/
def renderRecord (fields : List Text) (dialect : Dialect) (location : EditLocation) :
    Except WriteError Bytes :=
  match Layout.forDialect dialect with
  | .error e => .error (.ofRead e)
  | .ok layout => Renderer.record ⟨layout, dialect.encoding⟩ fields location

/-- The encoding has bytes for the text, and they decode to it. -/
def Encoding.Represents (encoding : Encoding) (text : Text) : Prop :=
  ∃ bytes, encodeText encoding text = .ok bytes ∧ (encoding.decode bytes).1 = text

/-- `term` ends a record in front of `after`: the end of the source stands for
a missing terminator, and behind a lone carriage return the source ends or a
whole code unit other than a line feed follows. Half a code unit there (the odd
last byte of a UTF-16 source) is excluded: it is no unit the scanner could see,
so a source that goes on leaves open which terminator this is. -/
structure Terminates (layout : Layout) (term : List ℕ) (after : Bytes) (atEnd : Bool) : Prop where
  mem : term ∈ terminators
  missing : term = [] → after = [] ∧ atEnd = true
  lone : term = [carriageReturn] → (after = [] ∧ atEnd = true) ∨
    ∃ u rest, layout.width.units after = u :: rest ∧ u ≠ lineFeed

section Refusals

variable {encoding : Encoding} {text : Text} {offset : ℕ} {c : Char} {r : Renderer}
  {isOnlyField : Bool} {location : EditLocation} {e : WriteError}

theorem encodeWith_error {encodeChar : Char → Option Bytes} {position : ℕ}
    (h : encodeWith encodeChar position text = .error (offset, c)) :
    c ∈ text ∧ encodeChar c = none := by
  induction text generalizing position with
  | nil => cases h
  | cons d rest ih =>
    unfold encodeWith at h
    cases hchar : encodeChar d with
    | none =>
      rw [hchar] at h
      obtain ⟨-, rfl⟩ := Prod.mk.inj (Except.error.inj h)
      exact ⟨List.mem_cons_self, hchar⟩
    | some bytes =>
      rw [hchar] at h
      cases hrest : encodeWith encodeChar (position + d.utf8Size) rest with
      | ok encoded =>
        rw [hrest] at h
        cases h
      | error refused =>
        rw [hrest] at h
        obtain rfl := Except.error.inj h
        obtain ⟨hmem, hnone⟩ := ih hrest
        exact ⟨List.mem_cons_of_mem d hmem, hnone⟩

/-- With a quote, a field is refused for a character without an encoding. -/
theorem field_error (hquote : r.layout.quote.isSome) {index : ℕ}
    (h : r.field text isOnlyField location index = .error e) :
    ∃ c ∈ text, r.encoding.encodeChar c = none ∧
      e = .unencodableCharacter location c r.encoding.name := by
  obtain ⟨quote, hquote⟩ := Option.isSome_iff_exists.mp hquote
  unfold Renderer.field at h
  cases hencode : encodeText r.encoding text with
  | error refused =>
    obtain ⟨hmem, hnone⟩ : refused.2 ∈ text ∧ r.encoding.encodeChar refused.2 = none := by
      unfold encodeText at hencode
      split at hencode <;> first | cases hencode | exact encodeWith_error hencode
    simp only [hencode, Except.error.injEq] at h
    exact ⟨refused.2, hmem, hnone, h.symm⟩
  | ok encoded =>
    simp only [hencode, hquote] at h
    split_ifs at h

theorem recordFrom_error (hquote : r.layout.quote.isSome) {fields : List Text} {index : ℕ}
    (h : r.recordFrom isOnlyField location index fields = .error e) :
    ∃ text ∈ fields, ∃ c ∈ text, r.encoding.encodeChar c = none ∧
      e = .unencodableCharacter location c r.encoding.name := by
  induction fields generalizing index with
  | nil => cases h
  | cons text rest ih =>
    rw [Renderer.recordFrom] at h
    cases hfield : r.field text isOnlyField location index with
    | error refused =>
      rw [hfield] at h
      obtain rfl := Except.error.inj h
      exact ⟨text, List.mem_cons_self, field_error hquote hfield⟩
    | ok rendered =>
      cases hrest : r.recordFrom isOnlyField location (index + 1) rest with rw [hfield, hrest] at h
      | error refused =>
        obtain rfl := Except.error.inj h
        obtain ⟨text', hmem, hc⟩ := ih hrest
        exact ⟨text', List.mem_cons_of_mem text hmem, hc⟩
      | ok following =>
        cases h

end Refusals

section Inverse

variable {dialect : Dialect} {layout : Layout} {fields : List Text} {location : EditLocation}
  {rendered : Bytes}

variable (h : Layout.forDialect dialect = .ok layout)
include h

omit h in
theorem decoded_of_represents {encoding : Encoding} {texts : List Text} {encoded : List Bytes}
    (h : Encodes encoding texts encoded) (hrep : ∀ text ∈ texts, encoding.Represents text) :
    decoded encoding encoded = texts := by
  induction h with
  | nil => rfl
  | @cons text bytes texts encoded htext _ ih =>
    obtain ⟨bytes', hbytes, hdecode⟩ := hrep text List.mem_cons_self
    obtain rfl : bytes = bytes' := Except.ok.inj (htext.symm.trans hbytes)
    show (encoding.decode bytes).1 :: decoded encoding encoded = text :: texts
    rw [hdecode, ih fun other hother => hrep other (List.mem_cons_of_mem _ hother)]

omit h in
theorem represents_writtenFields {encoding : Encoding} (hempty : encoding.Represents [])
    (hfields : ∀ text ∈ fields, encoding.Represents text) :
    ∀ text ∈ writtenFields fields, encoding.Represents text := by
  cases fields with
  | nil => simpa [writtenFields] using hempty
  | cons text rest => exact hfields

/-- A rendered record has at least one byte: an empty field on its own is
quoted. -/
theorem rendered_ne_nil (hempty : dialect.encoding.Represents [])
    (hfields : ∀ text ∈ fields, dialect.encoding.Represents text)
    (hrecord : Renderer.record ⟨layout, dialect.encoding⟩ fields location = .ok rendered) :
    rendered ≠ [] := by
  rintro rfl
  have hwidth : (Renderer.mk layout dialect.encoding).layout.width =
      (Renderer.mk layout dialect.encoding).encoding.width := (forDialect_ok h).1
  obtain ⟨encoded, hencodes, hrenders⟩ := record_renders hwidth hrecord
  -- no bytes are one empty field
  have hdecoded := decoded_of_represents hencodes (represents_writtenFields hempty hfields)
  have hone : encoded = [[]] := by
    rw [← hrenders.fields, UnitWidth.units_nil]
    rfl
  obtain ⟨bytes, hbytes, hdecode⟩ := hempty
  obtain rfl : bytes = [] := Except.ok.inj (hbytes.symm.trans (encodeText_nil _))
  have hwritten : writtenFields fields = [[]] := by
    rw [← hdecoded, hone, decoded, List.map_singleton, hdecode]
  have hfield : ∃ text, text = [] ∧
      Renderer.field ⟨layout, dialect.encoding⟩ text true location 0 = .ok [] := by
    cases fields with
    | nil => exact ⟨[], rfl, hrecord⟩
    | cons text rest =>
      obtain ⟨rfl, rfl⟩ := List.cons.inj hwritten
      obtain ⟨field, following, hfield, -, hnil⟩ := recordFrom_cons hrecord
      exact ⟨[], rfl, (List.append_eq_nil_iff.mp hnil.symm).1 ▸ hfield⟩
  obtain ⟨text, rfl, hfield⟩ := hfield
  obtain ⟨_, -, -, hne, -⟩ := field_renders hwidth hfield
  exact hne rfl rfl rfl

/-- **Rendering and scanning are inverse.** A rendered record ends right after
its terminator, whatever follows, and reads as the fields it was rendered
from; with a quote in the dialect, only a character that cannot be encoded
is refused. -/
theorem renderRecord_inverse (hempty : dialect.encoding.Represents []) (fields : List Text)
    (location : EditLocation) :
    ((∀ text ∈ fields, dialect.encoding.Represents text) →
      ∀ rendered, renderRecord fields dialect location = .ok rendered →
      ∀ (term : List ℕ) (after : Bytes) (atEnd : Bool), Terminates layout term after atEnd →
        recordLength (rendered ++ term.flatMap layout.width.unitBytes ++ after) layout atEnd =
            some (rendered ++ term.flatMap layout.width.unitBytes).length ∧
          (decodeFields (rendered ++ term.flatMap layout.width.unitBytes) layout
            dialect.encoding).1 = if fields = [] then [[]] else fields) ∧
    (layout.quote.isSome → ∀ e, renderRecord fields dialect location = .error e →
      ∃ text ∈ fields, ∃ c ∈ text, dialect.encoding.encodeChar c = none ∧
        e = .unencodableCharacter location c dialect.encoding.name) := by
  refine ⟨fun hfields rendered hrendered term after atEnd hterm => ?_, fun hquote e herror => ?_⟩
  swap
  · rw [renderRecord, h] at herror
    cases fields with
    | nil =>
      obtain ⟨c, hmem, -⟩ := field_error (r := ⟨layout, dialect.encoding⟩) hquote herror
      cases hmem
    | cons text rest => exact recordFrom_error (r := ⟨layout, dialect.encoding⟩) hquote herror
  rw [renderRecord, h] at hrendered
  have hwidth : (Renderer.mk layout dialect.encoding).layout.width =
      (Renderer.mk layout dialect.encoding).encoding.width := (forDialect_ok h).1
  obtain ⟨encoded, hencodes, hrenders⟩ := record_renders hwidth hrendered
  have hne := rendered_ne_nil h hempty hfields hrendered
  have hshape := hrenders.shaped_of_mem hterm.mem
  constructor
  · by_cases hend : after = [] ∧ atEnd = true
    · -- nothing follows: the record takes all that is left
      obtain ⟨rfl, rfl⟩ := hend
      exact hshape.single fun hnil => hne (List.append_eq_nil_iff.mp hnil).1
    · have hsettled := hshape.settled (q := after) (fun hmissing => hend (hterm.missing hmissing))
        fun hlone => (hterm.lone hlone).resolve_left hend
      simpa using recordLength_append hsettled [] atEnd
  · rw [hshape.fields, hrenders.fields,
      decoded_of_represents hencodes (represents_writtenFields hempty hfields)]
    cases fields <;> rfl

omit h

/-- A field with the delimiter, one with a quote and one with a line feed, in
front of a lone carriage return and another record. -/
theorem renderRecord_inverse_quoted :
    ∃ layout rendered, Layout.forDialect PagedReader.commaDialect = .ok layout ∧
      renderRecord [['a', ','], ['"'], ['\n']] PagedReader.commaDialect (.inserted 0) =
        .ok rendered ∧
      recordLength (rendered ++ [carriageReturn].flatMap layout.width.unitBytes ++ [98]) layout
        false = some (rendered ++ [carriageReturn].flatMap layout.width.unitBytes).length := by
  have heval : ∃ layout ∈ (Layout.forDialect PagedReader.commaDialect).toOption,
      ∃ rendered ∈ (renderRecord [['a', ','], ['"'], ['\n']] PagedReader.commaDialect
        (.inserted 0)).toOption, layout.width.units [98] = [98] := by
    decide +kernel
  obtain ⟨layout, hlayout, rendered, hrendered, hunits⟩ := heval
  have hlayout := toOption_eq_some.mp hlayout
  have hrendered := toOption_eq_some.mp hrendered
  refine ⟨layout, rendered, hlayout, hrendered, ?_⟩
  refine ((renderRecord_inverse hlayout ⟨[], rfl, rfl⟩ _ _).1 ?_ rendered hrendered _ [98] false
    ⟨by simp [terminators], by simp, fun _ => Or.inr ⟨98, [], hunits, by decide⟩⟩).1
  simp only [List.forall_mem_cons, List.not_mem_nil, false_imp_iff, implies_true, and_true]
  exact ⟨⟨[97, 44], rfl, rfl⟩, ⟨[34], rfl, rfl⟩, ⟨[10], rfl, rfl⟩⟩

end Inverse

end Dbflux.Delimited

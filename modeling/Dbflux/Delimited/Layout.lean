import Dbflux.Lib.Text

/-!
# Dialects and code units

The dialect of a delimited file and the layout the scanner derives from it
(`dbflux_delimited/src/lib.rs`, lines 83–96, and `reader.rs`, lines
105–259). A file is scanned in code units of one or two bytes; a unit is a
natural number below `2^8` or `2^16`.

The encodings themselves (`encoding_rs`) are outside the repository: an
`Encoding` is what the code asks of one.

Results:
* `units_append`, `flatMap_units`: a byte string is its code units followed by
  at most half a unit.
* `unitAt_eq`: `Layout::unit_at` reads the units one after another.
-/

namespace Dbflux.Delimited

open Lib List

abbrev Bytes := List UInt8

/-- The encodings the code tells apart. `singleByte` is
`Encoding::is_single_byte`. -/
inductive EncodingKind where
  | utf8
  | utf16LE
  | utf16BE
  | eucJp
  | iso2022Jp
  | singleByte
  | otherMultiByte
  deriving DecidableEq, Repr

/-- An `encoding_rs::Encoding` as the code uses it: its name, its kind,
`decode_without_bom_handling` and the encoder's bytes for one character
(`none` for a character it cannot represent). -/
structure Encoding where
  name : String
  kind : EncodingKind
  decode : Bytes → Text × Bool
  encodeChar : Char → Option Bytes

/-- The single-byte encoding whose bytes are the first 256 code points. -/
def latin1 : Encoding where
  name := "latin1"
  kind := .singleByte
  decode := fun bytes => (bytes.map fun byte => Char.ofNat byte.toNat, false)
  encodeChar := fun c => if c.toNat < 256 then some [UInt8.ofNat c.toNat] else none

/-- `Dialect` (`lib.rs`, lines 83–96). -/
structure Dialect where
  delimiter : UInt8
  quote : Option UInt8
  hasHeader : Bool
  encoding : Encoding

/-- `ReadError` (lines 31–66). A source's own error is its
message. -/
inductive ReadError where
  | source (message : String)
  | unexpectedReadLength (start finish received : ℕ)
  | unsupportedDialect (encoding : String) (byte : UInt8)
  | lineBreakInDialect (byte : UInt8)
  | quoteEqualsDelimiter (byte : UInt8)
  deriving DecidableEq, Repr

/-- `UnitWidth` (lines 111–115). -/
inductive UnitWidth where
  | byte
  | utf16LittleEndian
  | utf16BigEndian
  deriving DecidableEq, Repr

/-- `LINE_FEED`. -/
def lineFeed : ℕ := 0x0A

/-- `CARRIAGE_RETURN`. -/
def carriageReturn : ℕ := 0x0D

/-- `Layout` (lines 120–124). The delimiter and the quote of a
layout come from single bytes, are no line breaks and differ. -/
structure Layout where
  width : UnitWidth
  delimiter : ℕ
  quote : Option ℕ
  delimiter_lt : delimiter < 256
  delimiter_ne : delimiter ≠ lineFeed ∧ delimiter ≠ carriageReturn
  quote_lt : ∀ q ∈ quote, q < 256
  quote_ne : ∀ q ∈ quote, q ≠ lineFeed ∧ q ≠ carriageReturn ∧ q ≠ delimiter

/-! ## From a dialect to a layout -/

/-- `never_collides_with_a_trail_byte` (lines 238–240). -/
def neverCollidesWithATrailByte (byte : UInt8) : Bool :=
  decide (byte.toNat < 0x30) || (decide (0x3A ≤ byte.toNat) && decide (byte.toNat ≤ 0x3F))

/-- `is_scannable_by_byte` (lines 219–231). -/
def isScannableByByte (encoding : Encoding) (byte : UInt8) : Bool :=
  match encoding.kind with
  | .singleByte => true
  | .utf8 | .eucJp => decide (byte.toNat < 0x80)
  | .iso2022Jp => false
  | .utf16LE | .utf16BE | .otherMultiByte => neverCollidesWithATrailByte byte

/-- `[Some(dialect.delimiter), dialect.quote]`, flattened. -/
def Dialect.specialBytes (dialect : Dialect) : List UInt8 :=
  dialect.delimiter :: dialect.quote.toList

/-- `matches!(byte, b'\n' | b'\r')`. -/
def isLineBreakByte (byte : UInt8) : Bool :=
  decide (byte.toNat = lineFeed) || decide (byte.toNat = carriageReturn)

/-- The unit width of an encoding (lines 149–155). -/
def Encoding.width (encoding : Encoding) : UnitWidth :=
  match encoding.kind with
  | .utf16LE => .utf16LittleEndian
  | .utf16BE => .utf16BigEndian
  | _ => .byte

/-- The special byte that could be part of a multi-byte character
(lines 158–161). -/
def Dialect.collision (dialect : Dialect) : Option UInt8 :=
  if dialect.encoding.width = .byte then
    dialect.specialBytes.find? fun byte => !isScannableByByte dialect.encoding byte
  else none

/-- No special byte is a line break. -/
theorem specialBytes_not_break {dialect : Dialect} {byte : UInt8}
    (h : dialect.specialBytes.find? isLineBreakByte = none) (hb : byte ∈ dialect.specialBytes) :
    byte.toNat ≠ lineFeed ∧ byte.toNat ≠ carriageReturn := by
  have := find?_eq_none.mp h byte hb
  simpa [isLineBreakByte] using this

/-- `Layout::for_dialect` (lines 130–176). -/
def Layout.forDialect (dialect : Dialect) : Except ReadError Layout :=
  match hbreak : dialect.specialBytes.find? isLineBreakByte with
  | some byte => .error (.lineBreakInDialect byte)
  | none =>
    if hquote : dialect.quote = some dialect.delimiter then
      .error (.quoteEqualsDelimiter dialect.delimiter)
    else
      match dialect.collision with
      | some byte => .error (.unsupportedDialect dialect.encoding.name byte)
      | none =>
        .ok
          { width := dialect.encoding.width
            delimiter := dialect.delimiter.toNat
            quote := dialect.quote.map UInt8.toNat
            delimiter_lt := dialect.delimiter.toNat_lt
            delimiter_ne := specialBytes_not_break hbreak (mem_cons_self)
            quote_lt := by
              intro q hq
              obtain ⟨byte, -, rfl⟩ := Option.map_eq_some_iff.mp hq
              exact byte.toNat_lt
            quote_ne := by
              intro q hq
              obtain ⟨byte, hbyte, rfl⟩ := Option.map_eq_some_iff.mp hq
              have hmem : byte ∈ dialect.specialBytes :=
                mem_cons_of_mem _ (Option.mem_toList.mpr hbyte)
              obtain ⟨hlf, hcr⟩ := specialBytes_not_break hbreak hmem
              refine ⟨hlf, hcr, fun heq => hquote ?_⟩
              rw [hbyte, UInt8.toNat_inj.mp heq] }

/-! ## Code units -/

namespace UnitWidth

/-- `Layout::unit_size`. -/
def size : UnitWidth → ℕ
  | .byte => 1
  | .utf16LittleEndian | .utf16BigEndian => 2

/-- `u16::from_le_bytes` and `u16::from_be_bytes` of two bytes in file order. -/
def combine : UnitWidth → UInt8 → UInt8 → ℕ
  | .utf16BigEndian, high, low => low.toNat + 256 * high.toNat
  | _, low, high => low.toNat + 256 * high.toNat

/-- `Layout::unit_at` (lines 187–201). -/
def unitAt (width : UnitWidth) (bytes : Bytes) (position : ℕ) : Option ℕ :=
  match width with
  | .byte => bytes[position]?.map UInt8.toNat
  | .utf16LittleEndian | .utf16BigEndian =>
    match (bytes.drop position).take 2 with
    | [first, second] => some (width.combine first second)
    | _ => none

/-- `Layout::push_unit` (lines 205–211): the bytes of one unit. -/
def unitBytes (width : UnitWidth) (unit : ℕ) : Bytes :=
  match width with
  | .byte => if unit < 256 then [UInt8.ofNat unit] else []
  | .utf16LittleEndian => [UInt8.ofNat (unit % 256), UInt8.ofNat (unit / 256)]
  | .utf16BigEndian => [UInt8.ofNat (unit / 256), UInt8.ofNat (unit % 256)]

/-- The units of consecutive pairs of bytes. -/
def pairs (width : UnitWidth) : Bytes → List ℕ
  | first :: second :: rest => width.combine first second :: pairs width rest
  | _ => []

/-- The bytes after the last full pair. -/
def unpaired : Bytes → Bytes
  | _ :: _ :: rest => unpaired rest
  | rest => rest

/-- The full code units of a byte string, in order. -/
def units (width : UnitWidth) (bytes : Bytes) : List ℕ :=
  match width with
  | .byte => bytes.map UInt8.toNat
  | .utf16LittleEndian | .utf16BigEndian => width.pairs bytes

/-- The bytes after the last full code unit: half a unit, or nothing. -/
def half (width : UnitWidth) (bytes : Bytes) : Bytes :=
  match width with
  | .byte => []
  | .utf16LittleEndian | .utf16BigEndian => unpaired bytes

/-- One more than the largest unit. -/
def bound : UnitWidth → ℕ
  | .byte => 256
  | .utf16LittleEndian | .utf16BigEndian => 65536

variable (width : UnitWidth)

theorem size_pos : 0 < width.size := by
  cases width <;> decide

theorem combine_lt (first second : UInt8) : width.combine first second < 65536 := by
  have h1 := first.toNat_lt
  have h2 := second.toNat_lt
  cases width <;> simp only [combine] <;> omega

variable {unit : ℕ}

theorem unitBytes_length (h : unit < width.bound) : (width.unitBytes unit).length = width.size := by
  cases width with
  | byte => simp only [bound] at h; simp [unitBytes, size, h]
  | utf16LittleEndian | utf16BigEndian => rfl

theorem toNat_ofNat_of_lt {n : ℕ} (h : n < 256) : (UInt8.ofNat n).toNat = n := by
  exact Nat.mod_eq_of_lt h

theorem units_unitBytes (h : unit < width.bound) : width.units (width.unitBytes unit) = [unit] := by
  cases width with
  | byte =>
    simp only [bound] at h
    simp [units, unitBytes, h, toNat_ofNat_of_lt h]
  | utf16LittleEndian | utf16BigEndian =>
    simp only [bound] at h
    simp only [units, unitBytes, pairs, combine]
    rw [toNat_ofNat_of_lt (by omega), toNat_ofNat_of_lt (by omega)]
    congr 1
    omega

theorem unitBytes_combine (hw : width ≠ .byte) (first second : UInt8) :
    width.unitBytes (width.combine first second) = [first, second] := by
  have hlow : ∀ low high : UInt8, (low.toNat + 256 * high.toNat) % 256 = low.toNat := by
    intro low high
    have := low.toNat_lt
    omega
  have hhigh : ∀ low high : UInt8, (low.toNat + 256 * high.toNat) / 256 = high.toNat := by
    intro low high
    have := low.toNat_lt
    omega
  cases width with
  | byte => exact absurd rfl hw
  | utf16LittleEndian | utf16BigEndian => simp [unitBytes, combine, hlow, hhigh]

theorem pairs_append : ∀ (a b : Bytes), 2 ∣ a.length →
    width.pairs (a ++ b) = width.pairs a ++ width.pairs b
  | [], _, _ => rfl
  | [_], _, h => by simp at h
  | x :: y :: rest, b, h => by
    have hrest : 2 ∣ rest.length := by simpa using h
    simp [pairs, pairs_append rest b hrest]

/-- The units of a concatenation whose first part is made of full units. -/
theorem units_append {a : Bytes} (b : Bytes) (h : width.size ∣ a.length) :
    width.units (a ++ b) = width.units a ++ width.units b := by
  cases width with
  | byte => simp [units]
  | utf16LittleEndian | utf16BigEndian => exact pairs_append _ a b h

theorem pairs_flatMap (hw : width ≠ .byte) : ∀ bytes : Bytes,
    (width.pairs bytes).flatMap width.unitBytes ++ unpaired bytes = bytes
  | [] => rfl
  | [_] => rfl
  | x :: y :: rest => by
    simp only [pairs, unpaired, flatMap_cons, width.unitBytes_combine hw, append_assoc,
      pairs_flatMap hw rest]
    rfl

variable (bytes : Bytes)

/-- A byte string is the bytes of its units followed by the half unit. -/
theorem flatMap_units :
    (width.units bytes).flatMap width.unitBytes ++ width.half bytes = bytes := by
  cases width with
  | byte =>
    simp only [units, half, append_nil, flatMap_map]
    rw [show (fun byte : UInt8 => UnitWidth.byte.unitBytes byte.toNat) = fun byte => [byte] from
      funext fun byte => by simp [unitBytes, byte.toNat_lt]]
    simp
  | utf16LittleEndian | utf16BigEndian => exact pairs_flatMap _ (by decide) bytes

theorem mem_pairs_lt : ∀ (bytes : Bytes), ∀ unit ∈ width.pairs bytes, unit < 65536
  | [], _, h => by simp [pairs] at h
  | [_], _, h => by simp [pairs] at h
  | x :: y :: rest, unit, h => by
    rcases mem_cons.mp h with rfl | hrest
    · exact width.combine_lt x y
    · exact mem_pairs_lt rest unit hrest

theorem mem_units_lt {bytes : Bytes} (h : unit ∈ width.units bytes) : unit < width.bound := by
  cases width with
  | byte =>
    obtain ⟨byte, -, rfl⟩ := mem_map.mp h
    exact byte.toNat_lt
  | utf16LittleEndian | utf16BigEndian => exact mem_pairs_lt _ bytes unit h

theorem unpaired_length : ∀ bytes : Bytes, (unpaired bytes).length = bytes.length % 2
  | [] => rfl
  | [_] => rfl
  | _ :: _ :: rest => by
    rw [unpaired, unpaired_length rest, length_cons, length_cons]
    omega

theorem half_length : (width.half bytes).length = bytes.length % width.size := by
  cases width with
  | byte => simp [half, size, Nat.mod_one]
  | utf16LittleEndian | utf16BigEndian => exact unpaired_length bytes

theorem half_eq_nil_iff : width.half bytes = [] ↔ width.size ∣ bytes.length := by
  rw [← length_eq_zero_iff, half_length, Nat.dvd_iff_mod_eq_zero]

theorem flatMap_unitBytes_length {us : List ℕ} (h : ∀ u ∈ us, u < width.bound) :
    (us.flatMap width.unitBytes).length = width.size * us.length := by
  induction us with
  | nil => simp
  | cons u us ih =>
    rw [flatMap_cons, length_append, width.unitBytes_length (h u mem_cons_self),
      ih fun v hv => h v (mem_cons_of_mem _ hv), length_cons, Nat.mul_succ,
      Nat.add_comm]

/-- The units of bytes that were put together from units. -/
theorem units_flatMap {us : List ℕ} (h : ∀ u ∈ us, u < width.bound) (rest : Bytes) :
    width.units (us.flatMap width.unitBytes ++ rest) = us ++ width.units rest := by
  induction us with
  | nil => simp
  | cons u us ih =>
    have hu : u < width.bound := h u mem_cons_self
    rw [flatMap_cons, append_assoc,
      units_append _ _ (width.unitBytes_length hu ▸ Nat.dvd_refl _), width.units_unitBytes hu,
      ih fun v hv => h v (mem_cons_of_mem _ hv)]
    rfl

theorem length_eq :
    bytes.length = width.size * (width.units bytes).length + (width.half bytes).length := by
  conv_lhs => rw [← width.flatMap_units bytes]
  rw [length_append, flatMap_unitBytes_length _ fun u hu => width.mem_units_lt hu]

/-- More bytes after a byte string only add units after its own. -/
theorem units_prefix (a b : Bytes) : width.units a <+: width.units (a ++ b) := by
  conv_rhs => rw [← width.flatMap_units a, append_assoc,
    units_flatMap _ (fun u hu => width.mem_units_lt hu)]
  exact prefix_append _ _

theorem pairs_getElem? : ∀ (bytes : Bytes) (i : ℕ), (width.pairs bytes)[i]? =
      match (bytes.drop (2 * i)).take 2 with
      | [first, second] => some (width.combine first second)
      | _ => none
  | [], i => by simp [pairs]
  | [x], 0 => rfl
  | [x], i + 1 => by simp [pairs, Nat.mul_succ]
  | x :: y :: rest, 0 => by simp [pairs]
  | x :: y :: rest, i + 1 => by
    rw [pairs, getElem?_cons_succ, pairs_getElem? rest i, Nat.mul_succ]
    rfl

/-- Read at the positions the scanner visits, `unit_at` gives the units in
order and `None` after the last full one. -/
theorem unitAt_eq (i : ℕ) :
    width.unitAt bytes (width.size * i) = (width.units bytes)[i]? := by
  cases width with
  | byte => simp [unitAt, units, size]
  | utf16LittleEndian | utf16BigEndian => exact (pairs_getElem? _ bytes i).symm

@[simp] theorem units_nil : width.units [] = [] := by
  cases width <;> rfl

theorem pairs_unpaired : ∀ bytes : Bytes, width.pairs (unpaired bytes) = []
  | [] => rfl
  | [_] => rfl
  | _ :: _ :: rest => pairs_unpaired rest

theorem units_half : width.units (width.half bytes) = [] := by
  cases width with
  | byte => rfl
  | utf16LittleEndian | utf16BigEndian => exact pairs_unpaired _ bytes

section Split

variable {bytes : Bytes} {k : ℕ} (hk : k ≤ (width.units bytes).length)

include hk

/-- The first `k` units of a byte string, and the others. -/
theorem split_eq_flatMap :
    bytes.take (width.size * k) = ((width.units bytes).take k).flatMap width.unitBytes ∧
    bytes.drop (width.size * k) =
      ((width.units bytes).drop k).flatMap width.unitBytes ++ width.half bytes := by
  set us := width.units bytes with hus
  have hlen : ((us.take k).flatMap width.unitBytes).length = width.size * k := by
    rw [flatMap_unitBytes_length _ fun u hu => width.mem_units_lt (mem_of_mem_take hu),
      length_take_of_le hk]
  have hbytes : (us.take k).flatMap width.unitBytes ++
      ((us.drop k).flatMap width.unitBytes ++ width.half bytes) = bytes := by
    rw [← append_assoc, ← flatMap_append, take_append_drop, width.flatMap_units]
  constructor
  · conv_lhs => rw [← hbytes, take_left' hlen]
  · conv_lhs => rw [← hbytes, drop_left' hlen]

theorem units_take : width.units (bytes.take (width.size * k)) = (width.units bytes).take k := by
  have hlt : ∀ u ∈ (width.units bytes).take k, u < width.bound :=
    fun u hu => width.mem_units_lt (mem_of_mem_take hu)
  simpa [(width.split_eq_flatMap hk).1] using width.units_flatMap hlt []

theorem units_drop : width.units (bytes.drop (width.size * k)) = (width.units bytes).drop k := by
  rw [(width.split_eq_flatMap hk).2,
    units_flatMap _ fun u hu => width.mem_units_lt (mem_of_mem_drop hu), units_half,
    append_nil]

end Split

end UnitWidth

end Dbflux.Delimited

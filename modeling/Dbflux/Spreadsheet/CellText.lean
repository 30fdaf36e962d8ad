import Dbflux.Lib.JsonText

/-!
# The text of a cell

`escape_text` (`dbflux_spreadsheet/src/xlsx_patch/cell.rs`, lines 173–207) writes a
text as the content of an element. It is read in two steps: the XML reader ends
lines with a line feed and resolves references, and in what it returns a
spreadsheet takes every `_xHHHH_` for a character.

Results:
* `resolve_escapeText`: the first step leaves the escapes of underscores.
* `decodeExcel_escapeUnderscores`: the second step finds those and no others.
* `shownText_escapeText`: both together give the text back.
-/

namespace Dbflux.Spreadsheet

open Lib List JsonText

/-! ## Writing -/

/-- The first characters of a text meet the conditions, one after another. -/
def startsWith : List (Char → Bool) → Text → Bool
  | [], _ => true
  | _ :: _, [] => false
  | p :: ps, c :: rest => p c && startsWith ps rest

/-- `starts_excel_escape`, of a text that starts with an underscore. The source
looks at bytes; no byte of a character outside ASCII is one of these. -/
def startsExcelEscape (text : Text) : Bool :=
  startsWith ([(· == 'x'), isAsciiHexdigit, isAsciiHexdigit, isAsciiHexdigit, isAsciiHexdigit] ++
    [(· == '_')]) text.tail

/-- `escape_text`. -/
def escapeText (excelEscapes : Bool) : Text → Text
  | [] => []
  | c :: rest =>
    (if c = '&' then ['&', 'a', 'm', 'p', ';']
      else if c = '<' then ['&', 'l', 't', ';']
      else if c = '>' then ['&', 'g', 't', ';']
      else if c = '\r' then ['&', '#', '1', '3', ';']
      else if c = '_' ∧ excelEscapes ∧ startsExcelEscape (c :: rest) then
        ['_', 'x', '0', '0', '5', 'F', '_']
      else [c]) ++ escapeText excelEscapes rest

/-! ## Reading -/

/-- The end of a line is read as a line feed. -/
def normalizeLineEnds : Text → Text
  | [] => []
  | '\r' :: '\n' :: rest => '\n' :: normalizeLineEnds rest
  | c :: rest => (if c = '\r' then '\n' else c) :: normalizeLineEnds rest

/-- The character an entity stands for. -/
def entity (name : Text) : Option Char :=
  if name = ['q', 'u', 'o', 't'] then some '"'
  else if name = ['a', 'm', 'p'] then some '&'
  else if name = ['a', 'p', 'o', 's'] then some (Char.ofNat 39)
  else if name = ['l', 't'] then some '<'
  else if name = ['g', 't'] then some '>'
  else none

/-- The character that is written as `&` and `name` and `;`. -/
def reference (name : Text) : Option Char :=
  match name with
  | '#' :: 'x' :: digits =>
    (digits.foldlM (fun n c => (hexValue c).map (16 * n + ·)) 0).map Char.ofNat
  | '#' :: digits => some (Char.ofNat (Nat.ofDigitChars 10 digits 0))
  | _ => entity name

/-- Resolve the references of character data; `name` is what has been read of
one. A `<` would end the data. -/
def resolve (name : Option Text) : Text → Option Text
  | [] => if name = none then some [] else none
  | c :: rest =>
    match name with
    | none =>
      if c = '&' then resolve (some []) rest
      else if c = '<' then none
      else (resolve none rest).map (c :: ·)
    | some name =>
      if c = ';' then do return (← reference name) :: (← resolve none rest)
      else resolve (some (name ++ [c])) rest

/-- The character of the escape whose underscore stands in front of `rest`. -/
def escapedChar (rest : Text) : Char :=
  match rest with
  | _ :: a :: b :: c :: d :: _ => Char.ofNat ((hexCode a b c d).getD 0)
  | _ => '_'

/-- Replace every `_xHHHH_`, from left to right; `skip` characters of the last
one are still to come. -/
def decodeExcel : ℕ → Text → Text
  | _, [] => []
  | skip + 1, _ :: rest => decodeExcel skip rest
  | 0, c :: rest =>
    if c = '_' ∧ startsExcelEscape (c :: rest) then escapedChar rest :: decodeExcel 6 rest
    else c :: decodeExcel 0 rest

/-- What a spreadsheet shows for the content of a text element. -/
def shownText (written : Text) : Option Text :=
  (resolve none (normalizeLineEnds written)).map (decodeExcel 0)

/-! ## The XML reader -/

/-- The text with the escapes of underscores only. -/
def escapeUnderscores : Text → Text
  | [] => []
  | c :: rest =>
    c :: ((if c = '_' ∧ startsExcelEscape (c :: rest) then ['x', '0', '0', '5', 'F', '_'] else []) ++
      escapeUnderscores rest)

theorem return_notMem_escapeText (excelEscapes : Bool) (text : Text) :
    '\r' ∉ escapeText excelEscapes text := by
  induction text with
  | nil => exact not_mem_nil
  | cons c rest ih =>
    rw [escapeText, mem_append, not_or]
    refine ⟨?_, ih⟩
    split_ifs with _ _ _ hreturn
    case neg => rwa [mem_singleton, eq_comm]
    all_goals decide

theorem normalizeLineEnds_eq {text : Text} (h : '\r' ∉ text) : normalizeLineEnds text = text := by
  fun_induction normalizeLineEnds text with
  | case1 => rfl
  | case2 => simp at h
  | case3 c rest _ ih =>
    obtain ⟨hc, hrest⟩ := not_or.mp (mt mem_cons.mpr h)
    rw [if_neg (Ne.symm hc), ih hrest]

theorem resolve_escapeText (text : Text) :
    resolve none (escapeText true text) = some (escapeUnderscores text) := by
  induction text with
  | nil => rfl
  | cons c rest ih =>
    rw [escapeText]
    split_ifs with hamp hlt hgt hreturn hstarts
    · simp [resolve, reference, entity, escapeUnderscores, ih, hamp]
    · simp [resolve, reference, entity, escapeUnderscores, ih, hlt]
    · simp [resolve, reference, entity, escapeUnderscores, ih, hgt]
    · simp [resolve, reference, escapeUnderscores, ih, hreturn, Nat.ofDigitChars]
    · obtain ⟨rfl, -, hstarts⟩ := hstarts
      simp [resolve, escapeUnderscores, ih, hstarts]
    · simp_all [resolve, escapeUnderscores]

/-! ## The escapes of underscores -/

/-- An escape begins with the underscore it stands for, so a text starts as it
did up to its first underscore. -/
theorem startsWith_escapeUnderscores {ps : List (Char → Bool)} (h : ∀ p ∈ ps, p '_' = false)
    (text : Text) : startsWith (ps ++ [(· == '_')]) (escapeUnderscores text) =
      startsWith (ps ++ [(· == '_')]) text := by
  induction ps generalizing text with
  | nil => cases text <;> simp [startsWith, escapeUnderscores]
  | cons p ps ih =>
    obtain ⟨hp, hps⟩ := forall_mem_cons.mp h
    cases text with
    | nil => rfl
    | cons c rest =>
      by_cases hc : c = '_'
      · simp [startsWith, escapeUnderscores, hc, hp]
      · simp only [escapeUnderscores, hc, false_and, if_false, nil_append, cons_append, startsWith,
          ih hps]

theorem decodeExcel_escapeUnderscores (text : Text) :
    decodeExcel 0 (escapeUnderscores text) = text := by
  induction text with
  | nil => rfl
  | cons c rest ih =>
    rw [escapeUnderscores]
    split_ifs with hstarts
    · rw [hstarts.1]
      show '_' :: decodeExcel 0 (escapeUnderscores rest) = _
      rw [ih]
    · have hsame : startsExcelEscape (c :: escapeUnderscores rest) = startsExcelEscape (c :: rest) :=
        startsWith_escapeUnderscores (by decide) rest
      rw [nil_append, decodeExcel, hsame, if_neg hstarts, ih]

/-- **A text comes back.** -/
theorem shownText_escapeText (text : Text) : shownText (escapeText true text) = some text := by
  rw [shownText, normalizeLineEnds_eq (return_notMem_escapeText true text), resolve_escapeText,
    Option.map_some, decodeExcel_escapeUnderscores]

end Dbflux.Spreadsheet

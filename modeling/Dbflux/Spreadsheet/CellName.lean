import Dbflux.Lib.Lines
import Dbflux.Lib.Numeral

/-!
# Cell references

Model of `cell_name`, `column_name` and `parse_cell_reference` of
`dbflux_spreadsheet/src/xlsx_patch/cell.rs` (lines 14–52). Rows and columns
are zero-based `usize` values; the sums and products that the source checks or
saturates are checked or saturated at `usizeMax`. A column is written in
letters without a zero digit, so `Z` is followed by `AA`.

Results:
* `parseCellReference_cellName`: the name of a position is read back as the
  position, for every row and column below `usize::MAX`.
* `cellName_exact`: and every plain name that is read is the name of its position.
* `isNameChar_of_mem_cellName`: a name has ASCII letters and digits only.
-/

namespace Dbflux.Spreadsheet

open Dbflux.Lib List

/-- `n.saturating_add(1)`. -/
def saturatingSucc (n : ℕ) : ℕ := min (n + 1) usizeMax

theorem saturatingSucc_of_lt {n : ℕ} (h : n < usizeMax) : saturatingSucc n = n + 1 :=
  Nat.min_eq_left h

/-! ## Writing a name -/

/-- `char::from(b'A' + offset)`. -/
def columnLetter (offset : ℕ) : Char := Char.ofNat ('A'.toNat + offset)

/-- The loop of `column_name`: the letters of `remaining` in front of those
already found. Every turn makes `remaining` smaller, so `remaining` turns
are enough. -/
def columnLetters : ℕ → ℕ → Text → Text
  | turns + 1, remaining + 1, letters =>
    columnLetters turns (remaining / 26) (columnLetter (remaining % 26) :: letters)
  | _, _, letters => letters

/-- `column_name` (lines 20–31). -/
def columnName (column : ℕ) : Text :=
  columnLetters (saturatingSucc column) (saturatingSucc column) []

/-- `cell_name` (lines 15–17). -/
def cellName (row column : ℕ) : Text := columnName column ++ decimal (saturatingSucc row)

/-! ## Reading a name -/

/-- `n.checked_sub(1)`. -/
def checkedPred : ℕ → Option ℕ
  | 0 => none
  | n + 1 => some n

/-- One letter of the `try_fold` of `parse_cell_reference`: the product and the
sum are checked. -/
def addLetter (column : ℕ) (letter : Char) : Option ℕ :=
  let value := letter.toUpper.toNat - 'A'.toNat + 1
  if column * 26 ≤ usizeMax ∧ column * 26 + value ≤ usizeMax then some (column * 26 + value)
  else none

/-- `parse_cell_reference` (lines 34–51): the row and the column. -/
def parseCellReference (text : Text) : Option (ℕ × ℕ) :=
  let text := (trim text).filter (· ≠ '$')
  let letters := text.takeWhile fun c => !isAsciiDigit c
  let digits := text.dropWhile fun c => !isAsciiDigit c
  if digits = [] ∨ letters = [] ∨ ¬ letters.all isAsciiAlphabetic then none
  else do
    let column ← letters.foldlM addLetter 0
    let row ← parseUsize digits
    return (← checkedPred row, ← checkedPred column)

/-! ## A name is read back -/

variable (turns remaining : ℕ)

theorem columnLetters_append (letters : Text) :
    columnLetters turns remaining letters = columnLetters turns remaining [] ++ letters := by
  induction turns generalizing remaining letters with
  | zero => simp [columnLetters]
  | succ turns ih =>
    cases remaining with
    | zero => simp [columnLetters]
    | succ remaining =>
      simp only [columnLetters]
      rw [ih, ih (remaining / 26) [columnLetter (remaining % 26)]]
      simp

theorem columnLetters_succ : columnLetters (turns + 1) (remaining + 1) [] =
      columnLetters turns (remaining / 26) [] ++ [columnLetter (remaining % 26)] := by
  rw [columnLetters, columnLetters_append]

theorem columnLetter_spec (offset : ℕ) (h : offset < 26) : isAsciiAlphabetic (columnLetter offset) ∧
      (columnLetter offset).toUpper.toNat - 'A'.toNat = offset := by
  revert offset
  decide

variable {c : Char}

theorem isAsciiAlphabetic_of_mem_columnLetters {turns remaining : ℕ}
    (h : c ∈ columnLetters turns remaining []) : isAsciiAlphabetic c := by
  induction turns generalizing remaining with
  | zero => simp [columnLetters] at h
  | succ turns ih =>
    cases remaining with
    | zero => simp [columnLetters] at h
    | succ remaining =>
      rw [columnLetters_succ, mem_append, mem_singleton] at h
      rcases h with h | rfl
      · exact ih h
      · exact (columnLetter_spec _ (Nat.mod_lt _ (by decide))).1

/-- The letters of `n` are read as `n`: no partial sum is above `n`. -/
theorem foldlM_columnLetters {turns n : ℕ} (hturns : n ≤ turns) (hn : n ≤ usizeMax) :
    (columnLetters turns n []).foldlM addLetter 0 = some n := by
  induction turns generalizing n with
  | zero =>
    obtain rfl : n = 0 := by omega
    rfl
  | succ turns ih =>
    cases n with
    | zero => rfl
    | succ n =>
      have hvalue := (columnLetter_spec (n % 26) (Nat.mod_lt _ (by decide))).2
      rw [columnLetters_succ, foldlM_append, ih (by omega) (by omega)]
      simp only [Option.bind_eq_bind, Option.bind_some, foldlM_cons, foldlM_nil, addLetter, hvalue]
      have hsum : n / 26 * 26 + (n % 26 + 1) = n + 1 := by omega
      rw [hsum, if_pos ⟨by omega, hn⟩]
      rfl

/-- An ASCII letter or digit. -/
def isNameChar (c : Char) : Bool := isAsciiAlphabetic c || isAsciiDigit c

theorem isNameChar_of_mem_cellName {row column : ℕ} (h : c ∈ cellName row column) :
    isNameChar c := by
  rw [isNameChar, Bool.or_eq_true]
  rcases mem_append.mp h with h | h
  · exact .inl (isAsciiAlphabetic_of_mem_columnLetters h)
  · exact .inr (isAsciiDigit_of_mem_decimal h)

theorem isNameChar_iff (c : Char) : isNameChar c ↔
    (97 ≤ c.toNat ∧ c.toNat ≤ 122) ∨ (65 ≤ c.toNat ∧ c.toNat ≤ 90) ∨
      (48 ≤ c.toNat ∧ c.toNat ≤ 57) := by
  rw [isNameChar, Bool.or_eq_true, isAsciiAlphabetic_iff, isAsciiDigit_iff, or_assoc]

theorem not_isWhitespace_of_isNameChar (h : isNameChar c) : ¬ isWhitespace c := by
  rw [isNameChar_iff] at h
  rw [isWhitespace_iff]
  omega

/-- **A cell's name is read back as its position.** -/
theorem parseCellReference_cellName {row column : ℕ} (hrow : row < usizeMax)
    (hcolumn : column < usizeMax) :
    parseCellReference (cellName row column) = some (row, column) := by
  have hname : ∀ c ∈ cellName row column, isNameChar c := fun c => isNameChar_of_mem_cellName
  have hblank {c : Char} (hc : c ∈ cellName row column) : isWhitespace c = false :=
    Bool.eq_false_of_not_eq_true (not_isWhitespace_of_isNameChar (hname c hc))
  have htrim := trim_eq_self (fun c hc => hblank (mem_of_head? hc)) fun c hc =>
    hblank (mem_of_getLast? hc)
  have hdollar : (cellName row column).filter (· ≠ '$') = cellName row column := by
    rw [filter_eq_self]
    intro c hc
    have := (isNameChar_iff c).mp (hname c hc)
    rw [decide_eq_true_eq]
    rintro rfl
    revert this
    decide
  have hletters : ∀ c ∈ columnName column, (!isAsciiDigit c) = true := by
    intro c hc
    have hletter := (isAsciiAlphabetic_iff c).mp (isAsciiAlphabetic_of_mem_columnLetters hc)
    rw [Bool.not_eq_true', ← Bool.not_eq_true, isAsciiDigit_iff]
    omega
  obtain ⟨htake, hdrop⟩ : (cellName row column).takeWhile (!isAsciiDigit ·) = columnName column ∧
      (cellName row column).dropWhile (!isAsciiDigit ·) = decimal (row + 1) := by
    rw [cellName, saturatingSucc_of_lt hrow]
    refine takeWhile_append_of_stop hletters fun c hc => ?_
    rw [Bool.not_eq_false', isAsciiDigit_of_mem_decimal (mem_of_head? hc)]
  have hnonempty : columnName column ≠ [] := by
    rw [columnName, saturatingSucc_of_lt hcolumn, columnLetters_succ]
    simp
  have hall : (columnName column).all isAsciiAlphabetic :=
    all_eq_true.mpr fun c hc => isAsciiAlphabetic_of_mem_columnLetters hc
  have hcolumnRead : (columnName column).foldlM addLetter 0 = some (column + 1) := by
    rw [columnName, saturatingSucc_of_lt hcolumn]
    exact foldlM_columnLetters (Nat.le_refl _) hcolumn
  unfold parseCellReference
  simp only [htrim, hdollar, htake, hdrop]
  rw [if_neg (by simp [decimal_ne_nil, hnonempty, hall]), hcolumnRead, parseUsize_decimal hrow]
  rfl

/-- The number written in upper-case letters, and what is written for it. -/
theorem columnLetter_of_upper {c : Char} (hletter : isAsciiAlphabetic c)
    (hlower : ¬ ('a' ≤ c ∧ c ≤ 'z')) : c.toUpper.toNat - 'A'.toNat < 26 ∧
      columnLetter (c.toUpper.toNat - 'A'.toNat) = c := by
  obtain ⟨hlow, hhigh⟩ := ((isAsciiAlphabetic_iff c).mp hletter).resolve_left fun h => hlower
    ⟨(char_le_iff _ _).mpr h.1, (char_le_iff _ _).mpr h.2⟩
  rw [← Char.ofNat_toNat c]
  generalize c.toNat = n at hlow hhigh
  interval_cases n <;> decide

/-- Upper-case letters are what is written for the number they are read as. -/
theorem columnLetters_of_foldlM {letters : Text} {n turns : ℕ}
    (hletters : ∀ c ∈ letters, isAsciiAlphabetic c ∧ ¬ ('a' ≤ c ∧ c ≤ 'z'))
    (h : letters.foldlM addLetter 0 = some n) (hturns : n ≤ turns) :
    n ≤ usizeMax ∧ columnLetters turns n [] = letters := by
  induction letters using reverseRecOn generalizing n turns with
  | nil =>
    cases h
    exact ⟨Nat.zero_le _, by cases turns <;> rfl⟩
  | append_singleton front c ih =>
    obtain ⟨hfront, hc⟩ := forall_mem_append.mp hletters
    obtain ⟨hlt, hletter⟩ := columnLetter_of_upper (hc c mem_cons_self).1 (hc c mem_cons_self).2
    rw [foldlM_append] at h
    obtain ⟨before, hbefore, h⟩ := Option.bind_eq_some_iff.mp h
    simp only [foldlM_cons, foldlM_nil, bind_pure, addLetter, Option.ite_none_right_eq_some,
      Option.some.injEq] at h
    generalize c.toUpper.toNat - 'A'.toNat = value at hlt hletter h
    obtain ⟨⟨-, hmax⟩, rfl⟩ := h
    refine ⟨hmax, ?_⟩
    obtain ⟨turns, rfl⟩ : ∃ fewer, turns = fewer + 1 := ⟨turns - 1, by omega⟩
    have hdiv : (before * 26 + value) / 26 = before := by omega
    have hmod : (before * 26 + value) % 26 = value := by omega
    rw [← Nat.add_assoc, columnLetters_succ, hdiv, hmod, hletter, (ih hfront hbefore (by omega)).2]

/-- **A1 names are exact.** -/
theorem cellName_exact : (∀ row < usizeMax, ∀ column < usizeMax,
      parseCellReference (cellName row column) = some (row, column)) ∧
    ∀ (text : Text) (row column : ℕ), '$' ∉ text → trim text = text →
      (∀ c ∈ text, ¬ ('a' ≤ c ∧ c ≤ 'z')) →
      (text.dropWhile fun c => !isAsciiDigit c).head? ≠ some '0' →
      parseCellReference text = some (row, column) → text = cellName row column := by
  refine ⟨fun row hrow column hcolumn => parseCellReference_cellName hrow hcolumn, ?_⟩
  intro text row column hdollar htrim hlower hzero h
  have hfilter : text.filter (· ≠ '$') = text :=
    filter_eq_self.mpr fun c hc => decide_eq_true fun heq => hdollar (heq ▸ hc)
  simp only [parseCellReference, htrim, hfilter] at h
  obtain ⟨hparts, h⟩ := Option.ite_none_left_eq_some.mp h
  simp only [not_or, not_not] at hparts
  obtain ⟨columns, hcolumns, h⟩ := Option.bind_eq_some_iff.mp h
  obtain ⟨rows, hrows, h⟩ := Option.bind_eq_some_iff.mp h
  cases rows with
  | zero => cases h
  | succ rows =>
    cases columns with
    | zero => cases h
    | succ columns =>
      cases h
      have hletters : ∀ c ∈ text.takeWhile fun c => !isAsciiDigit c,
          isAsciiAlphabetic c ∧ ¬ ('a' ≤ c ∧ c ≤ 'z') := fun c hc =>
        ⟨all_eq_true.mp hparts.2.2 c hc, hlower c (takeWhile_subset _ hc)⟩
      obtain ⟨hmax, hname⟩ := columnLetters_of_foldlM hletters hcolumns le_rfl
      have hsign : withoutSign (text.dropWhile fun c => !isAsciiDigit c) =
          text.dropWhile fun c => !isAsciiDigit c := by
        refine if_neg fun hplus => ?_
        have hdigit := head?_dropWhile_not (fun c => !isAsciiDigit c) text
        rw [hplus] at hdigit
        exact absurd hdigit (by decide)
      simp only [parseUsize, hsign, Option.ite_none_right_eq_some, Option.some.injEq] at hrows
      obtain ⟨⟨hne, hdigits, hrow⟩, hvalue⟩ := hrows
      rw [hvalue] at hrow
      rw [cellName, columnName, saturatingSucc_of_lt hmax, saturatingSucc_of_lt hrow, hname,
        ← hvalue, decimal_ofDigitChars hne hdigits hzero, takeWhile_append_dropWhile]

/-- `AB12`, from its letters and digits. -/
theorem name_of_ab12 : parseCellReference "AB12".toList = some (11, 27) ∧
    "AB12".toList = cellName 11 27 := by
  have hread : parseCellReference "AB12".toList = some (11, 27) := by decide +kernel
  have hupper : ∀ c ∈ "AB12".toList, ¬ ('a' ≤ c ∧ c ≤ 'z') := by simp
  exact ⟨hread, cellName_exact.2 _ _ _ (by decide) (by decide +kernel) hupper (by decide) hread⟩

end Dbflux.Spreadsheet

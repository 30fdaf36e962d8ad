import Dbflux.Lib.Text

/-!
# Numerals

Unsigned numbers as the Rust standard library writes and reads them: `format!`
of a `usize` and `str::parse::<usize>` on a 64-bit target.

Results:
* `parseUsize_decimal`: a written number is read back.
* `eq_decimal_of_position`: a numeral without a sign or a leading zero is what is
  written for its number.
-/

namespace Dbflux.Lib

/-- `usize::MAX` of a 64-bit target. -/
def usizeMax : ℕ := 2 ^ 64 - 1

/-- The decimal digits of a number, as `format!` writes it. -/
def decimal (n : ℕ) : Text := Nat.toDigits 10 n

/-- A number without the `+` it may start with. -/
def withoutSign (text : Text) : Text := if text.head? = some '+' then text.tail else text

/-- `str::parse::<usize>`: digits behind at most one `+`, not above `usizeMax`. -/
def parseUsize (text : Text) : Option ℕ :=
  let digits := withoutSign text
  if digits ≠ [] ∧ digits.all isAsciiDigit ∧ Nat.ofDigitChars 10 digits 0 ≤ usizeMax then
    some (Nat.ofDigitChars 10 digits 0)
  else none

variable {n : ℕ}

theorem isAsciiDigit_of_mem_decimal {c : Char} (h : c ∈ decimal n) : isAsciiDigit c := by
  have hdigit := Nat.isDigit_of_mem_toDigits (by decide) (by decide) h
  rw [isAsciiDigit_iff]
  simp only [Char.isDigit, Bool.and_eq_true, decide_eq_true_eq] at hdigit
  exact ⟨hdigit.1, hdigit.2⟩

theorem decimal_ne_nil (n : ℕ) : decimal n ≠ [] := Nat.toDigits_ne_nil

theorem parseUsize_decimal (h : n ≤ usizeMax) : parseUsize (decimal n) = some n := by
  have hall : (decimal n).all isAsciiDigit :=
    List.all_eq_true.mpr fun c hc => isAsciiDigit_of_mem_decimal hc
  have hvalue : Nat.ofDigitChars 10 (decimal n) 0 = n := Nat.ofDigitChars_ten_toDigits
  have hsign : withoutSign (decimal n) = decimal n := by
    apply if_neg
    intro hplus
    exact absurd (isAsciiDigit_of_mem_decimal (List.mem_of_head? hplus)) (by decide)
  simp only [parseUsize, hsign, hvalue]
  exact if_pos ⟨decimal_ne_nil n, hall, h⟩

/-- The number that is written as `text`: a numeral without a sign or a leading
zero. -/
def position (text : Text) : Option ℕ :=
  (parseUsize text).filter fun n => decimal n = text

theorem position_decimal (h : n ≤ usizeMax) : position (decimal n) = some n := by
  rw [position, parseUsize_decimal h, Option.filter_some, if_pos (decide_eq_true rfl)]

theorem parseUsize_of_position {text : Text} (h : position text = some n) :
    parseUsize text = some n :=
  (Option.filter_eq_some_iff.mp h).1

theorem eq_decimal_of_position {text : Text} (h : position text = some n) : text = decimal n :=
  (of_decide_eq_true (Option.filter_eq_some_iff.mp h).2).symm

theorem decimal_injective : Function.Injective decimal := by
  intro m n h
  have hm : Nat.ofDigitChars 10 (decimal m) 0 = m := Nat.ofDigitChars_ten_toDigits
  have hn : Nat.ofDigitChars 10 (decimal n) 0 = n := Nat.ofDigitChars_ten_toDigits
  rw [← hm, h, hn]

/-- A numeral without a leading zero is what is written for its number. -/
theorem decimal_ofDigitChars {digits : Text} (hne : digits ≠ []) (hall : digits.all isAsciiDigit)
    (hzero : digits.head? ≠ some '0') : decimal (Nat.ofDigitChars 10 digits 0) = digits := by
  induction digits using List.reverseRecOn with
  | nil => exact absurd rfl hne
  | append_singleton front d ih =>
    rw [List.all_append, Bool.and_eq_true, List.all_cons, Bool.and_eq_true] at hall
    obtain ⟨hlow, hhigh⟩ := (isAsciiDigit_iff d).mp hall.2.1
    have hdigit : decimal (d.toNat - '0'.toNat) = [d] := by
      rw [← Char.ofNat_toNat d]
      generalize d.toNat = n at hlow hhigh
      interval_cases n <;> rfl
    rw [Nat.ofDigitChars_append, Nat.ofDigitChars_cons, Nat.ofDigitChars_nil]
    by_cases hfront : front = []
    · subst hfront
      simpa using hdigit
    · rw [List.head?_append_of_ne_nil _ hfront] at hzero
      have hread := ih hfront hall.1 hzero
      have hpos : 0 < Nat.ofDigitChars 10 front 0 := by
        refine Nat.pos_of_ne_zero fun hnone => hzero ?_
        rw [← hread, hnone]
        rfl
      rw [decimal, ← Nat.toDigits_append_toDigits (by decide) hpos (by simp; omega)]
      exact congrArg₂ _ hread hdigit

end Dbflux.Lib

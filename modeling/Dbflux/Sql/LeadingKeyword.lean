import Dbflux.Lib.Text

/-!
# The leading keyword of a statement

`strip_leading_comments` (`dbflux_core/src/query/language_service.rs`,
lines 1372–1392), which the drivers' statement checks start with.

Results:
* `stripComments_eq`: the loop ends on every text; more rounds than the text
  has characters change nothing.
-/

namespace Dbflux.Sql

open Lib

/-- The loop of `strip_leading_comments`. A block comment ends at the first
`*/` of the text, which in `/*/` overlaps its own opening. -/
def stripComments : ℕ → Text → Text
  | 0, text => text
  | fuel + 1, text =>
    if ['-', '-'].isPrefixOf text then
      match afterFirst ['\n'] text with
      | some rest => stripComments fuel (trimStart rest)
      | none => []
    else if ['/', '*'].isPrefixOf text then
      match afterFirst ['*', '/'] text with
      | some rest => stripComments fuel (trimStart rest)
      | none => []
    else text

/-- `strip_leading_comments`. Each round consumes a character, so the length
of the text is enough fuel. -/
def stripLeadingComments (sql : Text) : Text :=
  stripComments sql.length (trimStart sql)

/-- The loop ends by itself: all numbers of rounds that cover the text strip the same
comments. -/
theorem stripComments_eq {m n : ℕ} {text : Text} (hm : text.length ≤ m) (hn : text.length ≤ n) :
    stripComments m text = stripComments n text := by
  induction m generalizing n text with
  | zero =>
    obtain rfl := List.length_eq_zero_iff.mp (Nat.le_zero.mp hm)
    cases n <;> rfl
  | succ m ih =>
    cases n with
    | zero =>
      obtain rfl := List.length_eq_zero_iff.mp (Nat.le_zero.mp hn)
      rfl
    | succ n =>
      have hskip {pattern rest : Text} (hpattern : 0 < pattern.length)
          (hrest : afterFirst pattern text = some rest) :
          stripComments m (trimStart rest) = stripComments n (trimStart rest) := by
        obtain ⟨before, rfl⟩ := append_of_afterFirst hrest
        have htrim : (trimStart rest).length ≤ rest.length := List.length_dropWhile_le _ _
        simp only [List.length_append] at hm hn
        exact ih (by omega) (by omega)
      rw [stripComments, stripComments]
      split_ifs
      · split
        next rest hrest => exact hskip (by simp) hrest
        next => rfl
      · split
        next rest hrest => exact hskip (by simp) hrest
        next => rfl
      · rfl

end Dbflux.Sql

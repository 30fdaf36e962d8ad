import Dbflux.Lib.Lines
import Dbflux.Lib.Slice

/-!
# Delete-word in the editor

Models of `word_operator_range` and `step_word` for the forward motion
(`dbflux_components/src/vim/machine.rs`, lines 1432–1541), of `word_class`
(1348–1356) and of `clamp_to_character` with the line it looks at (378–438). Offsets count
UTF-8 bytes. The motions to a word's end and backward are left out, and so is the row of a
line.

The range ends where the motion lands, except at the end of the buffer, which is told by the
landing place being the last character of the last line. A word of one character there is
that place too.

Results:
* `wordOperatorRange_stop_iff`: when the range stops before the word the motion lands on.
-/

namespace Dbflux.Vim

open Dbflux.Lib List

/-! ## The last character of a line -/

/-- The characters that end at or before an offset. -/
def charsWithin : Text → ℕ → Text
  | [], _ => []
  | c :: rest, offset =>
    if offset < c.utf8Size then [] else c :: charsWithin rest (offset - c.utf8Size)

/-- `Line`, without its row. -/
structure Line where
  start : ℕ
  content : Text

/-- `Line::containing`: what stands around the offset up to a line feed on either side. -/
def Line.containing (text : Text) (offset : ℕ) : Line :=
  let before := charsWithin text offset
  let behind := text.drop before.length
  ⟨utf8Length (before.rdropWhile (· ≠ '\n')),
    dropReturn (before.rtakeWhile (· ≠ '\n') ++ behind.takeWhile (· ≠ '\n'))⟩

/-- `Line::column_of`. -/
def Line.columnOf (line : Line) (offset : ℕ) : ℕ :=
  utf8Length (charsWithin line.content (min (offset - line.start) (utf8Length line.content)))

/-- `Line::last_column`. -/
def Line.lastColumn (line : Line) : ℕ := utf8Length line.content.dropLast

/-- `clamp_to_character`. -/
def clampToCharacter (text : Text) (offset : ℕ) : ℕ :=
  let line := Line.containing text offset
  line.start + min (line.columnOf offset) line.lastColumn

/-! ## Words -/

/-- `char_indices`, from an offset on. -/
def charIndices (start : ℕ) : Text → List (ℕ × Char)
  | [] => []
  | c :: rest => (start, c) :: charIndices (start + c.utf8Size) rest

/-- `word_offsets` (lines 1422–1424). -/
def wordOffsets (text : Text) : List (ℕ × Char) := charIndices 0 text

inductive WordClass
  | space
  | keyword
  | punctuation
  deriving DecidableEq

variable (unicode : UnicodeTable)

/-- `word_class`. -/
def wordClass (big : Bool) (c : Char) : WordClass :=
  if isWhitespace c then .space
  else if big || unicode.isAlphanumeric c || c = '_' then .keyword
  else .punctuation

/-- `step_word`, forward. -/
def stepWord (text : Text) (chars : List (ℕ × Char)) (offset : ℕ) (big : Bool) : ℕ :=
  let index := (chars.takeWhile (·.1 < offset)).length
  let index := if chars[index]?.map Prod.fst = some offset then index else index - 1
  match chars.drop index with
  | [] => 0
  | (start, c) :: rest =>
    let current := wordClass unicode big c
    let behind := if current = .space then (start, c) :: rest
      else ((start, c) :: rest).dropWhile fun item => wordClass unicode big item.2 = current
    match behind.dropWhile fun item => wordClass unicode big item.2 = .space with
    | [] => clampToCharacter text (utf8Length text)
    | item :: _ => item.1

/-- The loop of `word_operator_range`, which stops where a step does not move. -/
def moveWords (text : Text) (big : Bool) : ℕ → ℕ → ℕ
  | 0, target => target
  | turns + 1, target =>
    let next := stepWord unicode text (wordOffsets text) target big
    if next = target then target else moveWords text big turns next

/-- Where `count` words forward lead. -/
def wordTarget (text : Text) (offset : ℕ) (big : Bool) (count : ℕ) : ℕ :=
  moveWords unicode text big (min count ((wordOffsets text).length + 1)) offset

/-- `trim_end_matches(['\r', '\n'])`. -/
def trimBreaks (text : Text) : Text := text.rdropWhile fun c => c = '\r' ∨ c = '\n'

/-- `word_operator_range`, forward. -/
def wordOperatorRange (text : Text) (offset : ℕ) (big : Bool) (count : ℕ) : Option (ℕ × ℕ) :=
  let target := wordTarget unicode text offset big count
  let stop := if target = clampToCharacter text (utf8Length text) ∧ text ≠ [] then
      utf8Length (trimBreaks text)
    else target
  if offset < stop then some (offset, stop) else none

/-! ## The end of the buffer -/

theorem charsWithin_of_le {text : Text} {offset : ℕ} (h : utf8Length text ≤ offset) :
    charsWithin text offset = text := by
  induction text generalizing offset with
  | nil => rfl
  | cons c rest ih =>
    rw [utf8Length_cons] at h
    rw [charsWithin, if_neg (by omega), ih (by omega)]

theorem utf8Length_dropLast_le (text : Text) : utf8Length text.dropLast ≤ utf8Length text := by
  rcases eq_nil_or_concat text with rfl | ⟨front, c, rfl⟩
  · exact le_rfl
  · simp [utf8Length_append]

/-- The end of the buffer is clamped to the last character of the last line. -/
theorem clampToCharacter_end (text : Text) : clampToCharacter text (utf8Length text) =
    utf8Length (text.rdropWhile (· ≠ '\n')) +
      utf8Length (dropReturn (text.rtakeWhile (· ≠ '\n'))).dropLast := by
  have hline : Line.containing text (utf8Length text) =
      ⟨utf8Length (text.rdropWhile (· ≠ '\n')), dropReturn (text.rtakeWhile (· ≠ '\n'))⟩ := by
    simp [Line.containing, charsWithin_of_le]
  have hcontent : utf8Length (dropReturn (text.rtakeWhile (· ≠ '\n'))) ≤
      utf8Length text - utf8Length (text.rdropWhile (· ≠ '\n')) := by
    nth_rw 2 [← rdropWhile_append_rtakeWhile (p := (· ≠ '\n')) (l := text)]
    rw [utf8Length_append, Nat.add_sub_cancel_left]
    unfold dropReturn
    split_ifs
    · exact utf8Length_dropLast_le _
    · exact le_rfl
  simp only [clampToCharacter, hline, Line.columnOf, Line.lastColumn]
  rw [min_eq_right hcontent, charsWithin_of_le le_rfl, min_eq_right (utf8Length_dropLast_le _)]

/-- What stands in a line from its last column on. -/
theorem dropLast_dropReturn (line : Text) : ∃ back, line = (dropReturn line).dropLast ++ back ∧
    ∀ c after, back = c :: after → c = '\r' ∨ after = [] ∨ after = ['\r'] := by
  obtain ⟨tail, hline, htail⟩ : ∃ tail, line = dropReturn line ++ tail ∧
      (tail = [] ∨ tail = ['\r']) := by
    unfold dropReturn
    split_ifs with hlast
    · obtain ⟨front, rfl⟩ := getLast?_eq_some_iff.mp hlast
      exact ⟨['\r'], by simp, .inr rfl⟩
    · exact ⟨[], by simp, .inl rfl⟩
  rcases eq_nil_or_concat (dropReturn line) with hnil | ⟨front, d, hconcat⟩
  · refine ⟨tail, by rwa [hnil] at hline ⊢, fun c after hback => ?_⟩
    obtain rfl | rfl := htail <;> cases hback
    exact .inl rfl
  · rw [hconcat, concat_eq_append, append_assoc] at hline
    refine ⟨d :: tail, by rwa [hconcat, concat_eq_append, dropLast_concat], fun c after hback => ?_⟩
    cases hback
    exact .inr htail

theorem ne_break {c : Char} (hc : isWhitespace c = false) : c ≠ '\r' ∧ c ≠ '\n' := by
  constructor <;> rintro rfl <;> exact absurd hc (by decide)

/-- A character is the last one of the last line if nothing but a carriage return is behind
it. -/
theorem clampToCharacter_end_iff {before after : Text} {c : Char} (hc : isWhitespace c = false) :
    clampToCharacter (before ++ c :: after) (utf8Length (before ++ c :: after)) =
      utf8Length before ↔ after = [] ∨ after = ['\r'] := by
  obtain ⟨hreturn, hfeed⟩ := ne_break hc
  rw [clampToCharacter_end]
  constructor
  · intro hlength
    obtain ⟨back, hline, hback⟩ :=
      dropLast_dropReturn ((before ++ c :: after).rtakeWhile (· ≠ '\n'))
    have hsplit := rdropWhile_append_rtakeWhile (p := (· ≠ '\n')) (l := before ++ c :: after)
    rw [hline, ← append_assoc] at hsplit
    have hslice := sliceFrom_append before (c :: after)
    rw [← hlength, ← utf8Length_append] at hslice
    nth_rw 1 [← hsplit] at hslice
    rw [sliceFrom_append] at hslice
    exact (hback c after (Option.some.inj hslice)).resolve_left hreturn
  · have hbefore := congrArg utf8Length (rdropWhile_append_rtakeWhile (p := (· ≠ '\n')) (l := before))
    rw [utf8Length_append] at hbefore
    rintro (rfl | rfl)
    · rw [rdropWhile_concat_pos _ _ _ (by simpa using hfeed),
        rtakeWhile_concat_pos _ _ _ (by simpa using hfeed)]
      simpa [dropReturn, hreturn] using hbefore
    · rw [append_cons before c, rdropWhile_concat_pos _ _ _ (by simp),
        rdropWhile_concat_pos _ _ _ (by simpa using hfeed), rtakeWhile_concat_pos _ _ _ (by simp),
        rtakeWhile_concat_pos _ _ _ (by simpa using hfeed)]
      simpa [dropReturn] using hbefore

variable {unicode}

/-- **When delete-word stops before the word it lands on.** The motion lands behind the cursor
on `c`, which is no white space: the range stops there exactly if something other than a
last carriage return is behind `c`. -/
theorem wordOperatorRange_stop_iff {before after : Text} {c : Char} {offset count : ℕ} {big : Bool}
    (hc : isWhitespace c = false)
    (htarget : wordTarget unicode (before ++ c :: after) offset big count = utf8Length before)
    (hoffset : offset < utf8Length before) :
    ∃ stop, wordOperatorRange unicode (before ++ c :: after) offset big count =
        some (offset, stop) ∧ (stop ≤ utf8Length before ↔ ¬ (after = [] ∨ after = ['\r'])) := by
  have hne : before ++ c :: after ≠ [] := by simp
  by_cases hend : after = [] ∨ after = ['\r']
  · -- the whole buffer goes, with `c`
    have hkept : trimBreaks (before ++ [c]) = before ++ [c] :=
      rdropWhile_concat_neg _ _ _ (by simpa using ne_break hc)
    have htrim : trimBreaks (before ++ c :: after) = before ++ [c] := by
      obtain rfl | rfl := hend
      · exact hkept
      · rw [append_cons, trimBreaks, rdropWhile_concat_pos _ _ _ (by simp)]
        exact hkept
    have hsize := c.utf8Size_pos
    have hlong : utf8Length (before ++ [c]) = utf8Length before + c.utf8Size := by
      simp [utf8Length]
    refine ⟨utf8Length (before ++ [c]), ?_, iff_of_false (by omega) (not_not_intro hend)⟩
    simp only [wordOperatorRange, htarget, (clampToCharacter_end_iff hc).mpr hend, htrim]
    simp [hne]
    omega
  · refine ⟨utf8Length before, ?_, iff_of_true le_rfl hend⟩
    have hclamp : utf8Length before ≠ clampToCharacter (before ++ c :: after) _ :=
      fun h => hend ((clampToCharacter_end_iff hc).mp h.symm)
    simp [wordOperatorRange, htarget, hclamp, hoffset]

/-- A word of two letters is not touched. -/
theorem long_word_kept : ∃ stop,
    wordOperatorRange .ascii "a bc".toList 0 false 1 = some (0, stop) ∧ stop ≤ 2 := by
  have htarget : wordTarget .ascii ("a ".toList ++ 'b' :: "c".toList) 0 false 1 =
    utf8Length "a ".toList := by decide +kernel
  obtain ⟨stop, hrange, hiff⟩ := wordOperatorRange_stop_iff (by decide) htarget (by decide)
  exact ⟨stop, hrange, hiff.mpr (by decide)⟩

/-- A word of one character at the end is deleted with the word before it. -/
theorem last_letter_deleted : wordTarget .ascii "a b".toList 0 false 1 = 2 ∧
    wordOperatorRange .ascii "a b".toList 0 false 1 = some (0, 3) := by
  decide +kernel

end Dbflux.Vim

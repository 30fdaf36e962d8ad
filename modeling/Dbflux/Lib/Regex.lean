import Dbflux.Lib.Text

/-!
# Searching for a sequence of repeated character classes

Regular expressions that are a concatenation of repeated character classes,
matched leftmost and greedily with backtracking, and replaced one occurrence
after the other without overlap.
-/

namespace Dbflux.Lib.Regex

/-- A character class repeated at least `least` times, and at most `most` times
if there is such a bound. -/
structure Repeat where
  accepts : Char → Bool
  least : ℕ
  most : Option ℕ

/-- A character of a class, once. -/
def one (accepts : Char → Bool) : Repeat := ⟨accepts, 1, some 1⟩

/-- The longest run of the class, up to the bound. -/
def Repeat.run (item : Repeat) (text : Text) : ℕ :=
  let length := (text.takeWhile item.accepts).length
  match item.most with
  | none => length
  | some most => min length most

/-- The first of the lengths `length`, `length - 1`, …, `least` behind which the
rest matches, with the length of both. -/
def backtrack (least : ℕ) (rest : ℕ → Option ℕ) : ℕ → Option ℕ
  | 0 => if least = 0 then rest 0 else none
  | length + 1 =>
    if least ≤ length + 1 then
      match rest (length + 1) with
      | some n => some (length + 1 + n)
      | none => backtrack least rest length
    else none

/-- The length of the match at the start of a text. -/
def matchLength : List Repeat → Text → Option ℕ
  | [], _ => some 0
  | item :: rest, text =>
    backtrack item.least (fun length => matchLength rest (text.drop length)) (item.run text)

/-- `replace_all` and the number of matches. `skip` characters belong to the match
that was replaced last. -/
def replaceFrom (pattern : List Repeat) (replacement : Text) : ℕ → Text → Text × ℕ
  | _, [] => ([], 0)
  | skip + 1, _ :: rest => replaceFrom pattern replacement skip rest
  | 0, c :: rest =>
    match matchLength pattern (c :: rest) with
    | some (length + 1) =>
      let (text, count) := replaceFrom pattern replacement length rest
      (replacement ++ text, count + 1)
    | _ =>
      let (text, count) := replaceFrom pattern replacement 0 rest
      (c :: text, count)

def replaceAll (pattern : List Repeat) (replacement text : Text) : Text × ℕ :=
  replaceFrom pattern replacement 0 text

end Dbflux.Lib.Regex

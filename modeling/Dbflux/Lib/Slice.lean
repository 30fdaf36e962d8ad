import Dbflux.Lib.Text

/-!
# Slices of a text by byte offsets

`&text[a..b]` of Rust counts in UTF-8 bytes and panics where an offset is out
of bounds or inside a character; `none` is that panic. The offsets of
`str::find` and `str::match_indices` are character boundaries.

Results:
* `sliceTo_append`, `sliceFrom_append`: a text cut at a character boundary.
* `findOffset_some`, `findOffset_none`: the offset of the first occurrence and
  `afterFirst`.
* `findOffset_singleton`: the offset of the first occurrence of a character.
-/

namespace Dbflux.Lib

/-- `str::len`. -/
def utf8Length (text : Text) : ℕ := (text.map Char.utf8Size).sum

/-- `&text[offset..]`. -/
def sliceFrom : Text → ℕ → Option Text
  | text, 0 => some text
  | [], _ + 1 => none
  | c :: rest, n + 1 =>
    if n + 1 < c.utf8Size then none else sliceFrom rest (n + 1 - c.utf8Size)

/-- `&text[..offset]`. -/
def sliceTo : Text → ℕ → Option Text
  | _, 0 => some []
  | [], _ + 1 => none
  | c :: rest, n + 1 =>
    if n + 1 < c.utf8Size then none else (sliceTo rest (n + 1 - c.utf8Size)).map (c :: ·)

/-- `&text[start..stop]`. -/
def slice (text : Text) (start stop : ℕ) : Option Text :=
  if stop < start then none else (sliceTo text stop).bind (sliceFrom · start)

/-- `str::find`: the offset of the first occurrence. -/
def findOffset (pattern : Text) : Text → Option ℕ
  | [] => if pattern = [] then some 0 else none
  | c :: rest =>
    if pattern.isPrefixOf (c :: rest) then some 0
    else (findOffset pattern rest).map (c.utf8Size + ·)

/-- `str::match_indices`, for a pattern of which no two occurrences overlap. -/
def matchOffsets (pattern : Text) : Text → List ℕ
  | [] => []
  | c :: rest =>
    (if pattern.isPrefixOf (c :: rest) then [0] else []) ++
      (matchOffsets pattern rest).map (c.utf8Size + ·)

variable {pattern text behind : Text} {offset : ℕ} (before behind : Text)

theorem utf8Length_append :
    utf8Length (before ++ behind) = utf8Length before + utf8Length behind := by
  simp [utf8Length]

variable (c : Char) (rest : Text)

theorem utf8Length_cons : utf8Length (c :: rest) = c.utf8Size + utf8Length rest := by
  simp [utf8Length]

theorem sliceFrom_cons (n : ℕ) : sliceFrom (c :: rest) (c.utf8Size + n) = sliceFrom rest n := by
  obtain ⟨size, hsize⟩ := Nat.exists_eq_add_one_of_ne_zero c.utf8Size_pos.ne'
  rw [show c.utf8Size + n = size + n + 1 by omega, sliceFrom, if_neg (by omega),
    show size + n + 1 - c.utf8Size = n by omega]

theorem sliceTo_cons (n : ℕ) :
    sliceTo (c :: rest) (c.utf8Size + n) = (sliceTo rest n).map (c :: ·) := by
  obtain ⟨size, hsize⟩ := Nat.exists_eq_add_one_of_ne_zero c.utf8Size_pos.ne'
  rw [show c.utf8Size + n = size + n + 1 by omega, sliceTo, if_neg (by omega),
    show size + n + 1 - c.utf8Size = n by omega]

theorem sliceFrom_append :
    sliceFrom (before ++ behind) (utf8Length before) = some behind := by
  induction before with
  | nil => rw [List.nil_append, utf8Length, List.map_nil, List.sum_nil, sliceFrom]
  | cons c before ih => rw [List.cons_append, utf8Length_cons, sliceFrom_cons, ih]

theorem sliceTo_append :
    sliceTo (before ++ behind) (utf8Length before) = some before := by
  induction before with
  | nil => rw [utf8Length, List.map_nil, List.sum_nil, sliceTo]
  | cons c before ih => rw [List.cons_append, utf8Length_cons, sliceTo_cons, ih, Option.map_some]

theorem findOffset_none (h : findOffset pattern text = none) : afterFirst pattern text = none := by
  induction text with
  | nil =>
    rw [findOffset] at h
    rw [afterFirst]
    split_ifs at h ⊢
    rfl
  | cons c rest ih =>
    rw [findOffset] at h
    rw [afterFirst]
    split_ifs at h ⊢
    exact ih (Option.map_eq_none_iff.mp h)

/-- The first occurrence stands between the two texts at its ends. -/
theorem findOffset_some (h : findOffset pattern text = some offset) :
    ∃ before behind, text = before ++ pattern ++ behind ∧ offset = utf8Length before ∧
      afterFirst pattern text = some behind := by
  induction text generalizing offset with
  | nil =>
    rw [findOffset] at h
    split_ifs at h with hempty
    cases h
    exact ⟨[], [], by simp [hempty], rfl, by simp [afterFirst, hempty]⟩
  | cons c rest ih =>
    rw [findOffset] at h
    rw [afterFirst]
    split_ifs at h ⊢ with hstarts
    · cases h
      obtain ⟨behind, hbehind⟩ := List.isPrefixOf_iff_prefix.mp hstarts
      exact ⟨[], behind, hbehind.symm, rfl, by rw [← hbehind, List.drop_left]⟩
    · obtain ⟨n, hn, rfl⟩ := Option.map_eq_some_iff.mp h
      obtain ⟨before, behind, hrest, rfl, hafter⟩ := ih hn
      exact ⟨c :: before, behind, by rw [hrest]; rfl, (utf8Length_cons c before).symm, hafter⟩

theorem findOffset_singleton (text : Text) : findOffset [c] text =
      if c ∈ text then some (utf8Length (text.takeWhile (· ≠ c))) else none := by
  induction text with
  | nil => rfl
  | cons d rest ih =>
    rw [findOffset, ih]
    by_cases hd : c = d
    · subst hd
      simp [utf8Length]
    · have hd' : d ≠ c := .symm hd
      by_cases hrest : c ∈ rest <;> simp [hd, hd', hrest, utf8Length_cons]

end Dbflux.Lib

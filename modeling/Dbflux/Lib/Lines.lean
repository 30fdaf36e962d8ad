import Dbflux.Lib.Text

/-!
# Lines of a text

`str::lines` of the Rust standard library: the texts between line feeds, without
a carriage return in front of one and without an empty last line.

Results:
* `lines_append`: a line that ends in a line feed comes first.
* `not_mem_of_mem_lines`: no line holds a line feed.
* `trim_eq_self`: a text that neither starts nor ends with white space.
-/

namespace Dbflux.Lib

open List

/-- A line without the carriage return in front of its line feed. -/
def dropReturn (line : Text) : Text := if line.getLast? = some '\r' then line.dropLast else line

/-- The last line, which no line feed ends. -/
def lastLine : Option Text → List Text
  | some (c :: line) => [c :: line]
  | _ => []

/-- `str::lines`. -/
def lines (text : Text) : List Text :=
  let parts := text.splitOn '\n'
  parts.dropLast.map dropReturn ++ lastLine parts.getLast?

variable {text : Text}

theorem lines_append {line : Text} (rest : Text) (h : '\n' ∉ line) :
    lines (line ++ '\n' :: rest) = dropReturn line :: lines rest := by
  obtain ⟨first, others, hrest⟩ := exists_cons_of_ne_nil (splitOn_ne_nil '\n' rest)
  simp [lines, splitOn_append_cons_self_of_not_mem h, hrest]

theorem not_mem_of_mem_lines {line : Text} (h : line ∈ lines text) : '\n' ∉ line := by
  obtain hmem | hmem := mem_append.mp h
  · obtain ⟨part, hpart, rfl⟩ := mem_map.mp hmem
    have hnot := not_mem_of_mem_splitOn (mem_of_mem_dropLast hpart)
    unfold dropReturn
    split
    · exact fun hin => hnot (mem_of_mem_dropLast hin)
    · exact hnot
  · cases hlast : (text.splitOn '\n').getLast? with
    | none =>
      rw [hlast] at hmem
      cases hmem
    | some part =>
      rw [hlast] at hmem
      have hnot := not_mem_of_mem_splitOn (mem_of_getLast? hlast)
      cases part with
      | nil => cases hmem
      | cons c part =>
        obtain rfl := mem_singleton.mp hmem
        exact hnot

/-! ## Trimming -/

theorem trim_eq_self (hfirst : ∀ c, text.head? = some c → isWhitespace c = false)
    (hlast : ∀ c, text.getLast? = some c → isWhitespace c = false) : trim text = text := by
  have hstart : trimStart text = text := by
    cases text with
    | nil => rfl
    | cons c text =>
      exact dropWhile_cons_of_neg (by simp [hfirst c rfl])
  rw [trim, hstart, trimEnd, rdropWhile_eq_self_iff]
  intro hne hspace
  rw [hlast _ (getLast?_eq_some_getLast hne)] at hspace
  cases hspace

variable {c : Char}

theorem head?_trim (h : (trim text).head? = some c) : isWhitespace c = false := by
  have hprefix : trim text <+: trimStart text := rdropWhile_prefix _ _
  have hhead : (trimStart text).head? = some c := by
    obtain ⟨rest, hrest⟩ := hprefix
    rw [← hrest, head?_append, h]
    rfl
  have hne : trimStart text ≠ [] := by
    rintro hnil
    rw [hnil] at hhead
    cases hhead
  have hnot := head_dropWhile_not isWhitespace hne
  rw [head?_eq_some_head hne] at hhead
  rw [← Option.some.inj hhead]
  exact hnot

theorem getLast?_trim (h : (trim text).getLast? = some c) : isWhitespace c = false := by
  have hne : trim text ≠ [] := by
    rintro hnil
    rw [hnil] at h
    cases h
  have hnot := rdropWhile_last_not isWhitespace (trimStart text) hne
  rw [getLast?_eq_some_getLast hne] at h
  rw [← Option.some.inj h]
  exact Bool.eq_false_iff.mpr hnot

theorem mem_of_mem_trim (h : c ∈ trim text) : c ∈ text :=
  (dropWhile_sublist _).subset ((List.rdropWhile_prefix _ _).subset h)

end Dbflux.Lib

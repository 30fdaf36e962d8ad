import Dbflux.Lib.Text

/-!
# Splitting a text into a bounded number of parts

`str::splitn` cuts a text at its first separators and leaves the rest as the
last part. `join` is `[&str]::join` with one separator.

Results:
* `join_splitN`: joining the parts gives the text back.
* `splitN_join`: splitting gives the parts back, if none but the last one holds
  the separator, and the last one only when no further split is allowed.
* `not_mem_of_splitN`: no part but the last one holds the separator.
-/

namespace Dbflux.Lib

variable (separator : Char)

/-- `str::splitn(n, separator)`. -/
def splitN : ℕ → Text → List Text
  | 0, _ => []
  | 1, text => [text]
  | n + 2, text =>
    match text.dropWhile (· ≠ separator) with
    | [] => [text]
    | _ :: rest => text.takeWhile (· ≠ separator) :: splitN (n + 1) rest

/-- `[&str]::join(separator)`. -/
def join (parts : List Text) : Text := List.intercalate [separator] parts

variable {separator}

@[simp] theorem join_singleton (part : Text) : join separator [part] = part := by
  simp [join]

theorem join_cons {parts : List Text} (part : Text) (h : parts ≠ []) :
    join separator (part :: parts) = part ++ separator :: join separator parts := by
  cases parts with
  | nil => exact absurd rfl h
  | cons next parts => simp [join, List.intercalate_cons_cons]

variable (n : ℕ)

theorem splitN_ne_nil (text : Text) : splitN separator (n + 1) text ≠ [] := by
  cases n with
  | zero => simp [splitN]
  | succ n =>
    simp only [splitN]
    split <;> simp

theorem splitN_of_not_mem {text : Text} (h : separator ∉ text) :
    splitN separator (n + 1) text = [text] := by
  cases n with
  | zero => rfl
  | succ n =>
    have hall : text.dropWhile (· ≠ separator) = [] := by
      rw [List.dropWhile_eq_nil_iff]
      intro c hc
      simpa using fun heq : c = separator => h (heq ▸ hc)
    simp only [splitN, hall]

theorem splitN_append {part : Text} (rest : Text) (h : separator ∉ part) :
    splitN separator (n + 2) (part ++ separator :: rest) = part :: splitN separator (n + 1) rest := by
  have hpart : ∀ c ∈ part, decide (c ≠ separator) = true := by
    intro c hc
    simpa using fun heq : c = separator => h (heq ▸ hc)
  have hdrop : (part ++ separator :: rest).dropWhile (· ≠ separator) = separator :: rest := by
    rw [List.dropWhile_append_of_pos hpart]
    simp
  have htake : (part ++ separator :: rest).takeWhile (· ≠ separator) = part := by
    rw [List.takeWhile_append_of_pos hpart]
    simp
  simp only [splitN, hdrop, htake]

theorem join_splitN (text : Text) : join separator (splitN separator (n + 1) text) = text := by
  induction n generalizing text with
  | zero => simp [splitN]
  | succ n ih =>
    by_cases h : separator ∈ text
    · obtain ⟨part, rest, rfl, hpart⟩ := List.eq_append_cons_of_mem h
      rw [splitN_append n rest hpart, join_cons part (splitN_ne_nil n rest), ih]
    · rw [splitN_of_not_mem _ h, join_singleton]

theorem splitN_join {n : ℕ} {parts : List Text} (hne : parts ≠ []) (hlength : parts.length ≤ n)
    (hparts : ∀ part ∈ parts.dropLast, separator ∉ part)
    (hlast : ∀ part ∈ parts.getLast?, parts.length = n ∨ separator ∉ part) :
    splitN separator n (join separator parts) = parts := by
  induction parts generalizing n with
  | nil => exact absurd rfl hne
  | cons part parts ih =>
    cases parts with
    | nil =>
      rw [join_singleton]
      obtain ⟨n, rfl⟩ := Nat.exists_eq_succ_of_ne_zero (n := n) (by rintro rfl; simp at hlength)
      rcases hlast part (by simp) with h | h
      · obtain rfl : n = 0 := by simpa using h.symm
        rfl
      · exact splitN_of_not_mem n h
    | cons next parts =>
      obtain ⟨n, rfl⟩ : ∃ m, n = m + 2 := ⟨n - 2, by simp at hlength; omega⟩
      rw [join_cons part (by simp), splitN_append n _ (hparts part (by simp)),
        ih (by simp) (by simpa using hlength)]
      · intro p hp
        exact hparts p (by simp [List.dropLast_cons_of_ne_nil, hp])
      · intro p hp
        simpa using hlast p (by simpa using hp)

theorem not_mem_of_splitN {n i : ℕ} {text part : Text}
    (h : (splitN separator n text)[i]? = some part) (hi : i + 1 < n) : separator ∉ part := by
  induction n generalizing text i with
  | zero => omega
  | succ n ih =>
    obtain ⟨n, rfl⟩ := Nat.exists_eq_succ_of_ne_zero (n := n) (by omega)
    by_cases hmem : separator ∈ text
    · obtain ⟨first, rest, rfl, hfirst⟩ := List.eq_append_cons_of_mem hmem
      rw [splitN_append n rest hfirst] at h
      cases i with
      | zero => exact Option.some.inj h ▸ hfirst
      | succ i => exact ih (by simpa using h) (by omega)
    · rw [splitN_of_not_mem _ hmem] at h
      cases i with
      | zero => exact Option.some.inj h ▸ hmem
      | succ i => simp at h

end Dbflux.Lib

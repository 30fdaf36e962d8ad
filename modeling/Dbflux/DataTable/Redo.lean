import Dbflux.DataTable.Undo

/-!
# Redo of the edit buffer

`k` undos followed by `k` redos go down the history and up again. The
overrides, the pending inserts and both stacks come back in every reachable
buffer. The row states come back up to the deletion marks: `redo` sets or
lifts the mark of a row the way the action did when it was recorded, and the
row may have lost that mark since, to the undo of a later edit.

Results:
* `returned_of_tracked`: what the buffer is after the `2 k` steps.
* `redos_undos_restore_iff`: the buffer is restored iff every deletion mark is
  still the one the newest of the `k` actions about its row leaves.
-/

namespace Dbflux.DataTable.EditBuffer

open Lib

variable {V : Type} {b c : EditBuffer V} {a : EditAction V} {k : ℕ}

/-- `k` times `undo`. -/
def undos (k : ℕ) (b : EditBuffer V) : EditBuffer V := (fun b => b.undo.2)^[k] b

/-- `k` times `redo`. -/
def redos (k : ℕ) (b : EditBuffer V) : EditBuffer V := (fun b => b.redo.2)^[k] b

/-! ## Deletion marks -/

/-- Whether redoing an action leaves `row` marked for deletion, where the
action decides that. -/
def markAfter (row : ℕ) : EditAction V → Option Bool
  | .setCell r _ _ _ => if row = r then some false else none
  | .markDelete r => if row = r then some true else none
  | .unmarkDelete r => if row = r then some false else none
  | _ => none

theorem isPendingDelete_redoAction (b : EditBuffer V) (a : EditAction V) (row : ℕ) :
    (b.redoAction a).isPendingDelete row = (markAfter row a).getD (b.isPendingDelete row) := by
  cases a with
  | setCell r col old new =>
    by_cases hr : row = r <;> simp [redoAction, isPendingDelete, markAfter, lookup_insert_eq, hr]
  | clearCell r col replaced =>
    simp only [redoAction, isPendingDelete, settleClearedRow_rowStates, markAfter, Option.getD_none]
    -- the state is dropped only where it is no mark
    split_ifs with hkeep
    · rfl
    · rcases eq_or_ne row r with rfl | hr <;> simp_all
  | markDelete r =>
    by_cases hr : row = r <;> simp [redoAction, isPendingDelete, markAfter, lookup_insert_eq, hr]
  | unmarkDelete r =>
    simp only [redoAction, isPendingDelete, liftDelete_rowStates]
    by_cases hr : row = r <;> split_ifs <;> simp [markAfter, lookup_insert_eq, lookup_erase_eq, hr]
  | addInsert | removeInsert | setInsertCell => rfl

/-- Undoing an action that decides nothing about a row leaves its mark. -/
theorem isPendingDelete_undoAction {row : ℕ} (b : EditBuffer V) (h : markAfter row a = none) :
    (b.undoAction a).isPendingDelete row = b.isPendingDelete row := by
  cases a with
  | setCell r col old new =>
    have hr : row ≠ r := fun hr => by simp [markAfter, hr] at h
    cases old with
    | some old => rfl
    | none =>
      simp only [isPendingDelete, (undoAction_setCell_none b r col new).2]
      split_ifs <;> simp [hr]
  | clearCell r col replaced =>
    simp only [isPendingDelete, (undoAction_clearCell b r col replaced).2]
    split_ifs with hmark
    · rfl
    · rcases eq_or_ne row r with rfl | hr <;> simp_all
  | markDelete r =>
    have hr : row ≠ r := fun hr => by simp [markAfter, hr] at h
    simp only [undoAction, isPendingDelete, liftDelete_rowStates]
    split_ifs <;> simp [hr]
  | unmarkDelete r =>
    have hr : row ≠ r := fun hr => by simp [markAfter, hr] at h
    simp [undoAction, isPendingDelete, hr]
  | addInsert | removeInsert | setInsertCell => rfl

/-- Next to the overrides, the row states hold the deletion marks and nothing
else. -/
theorem RowsAgree.ext {o : Finmap (fun _ : ℕ × ℕ => V)} {s s' : Finmap (fun _ : ℕ => RowState)}
    (h : RowsAgree o s) (h' : RowsAgree o s')
    (hmarks : ∀ row, s.lookup row = some .pendingDelete ↔ s'.lookup row = some .pendingDelete) :
    s = s' := by
  refine Finmap.ext_lookup fun row => ?_
  have hagree := h row
  have hagree' := h' row
  have hmark := hmarks row
  revert hagree hagree' hmark
  rcases s.lookup row with _ | (_ | _ | _ | _ | _ | _) <;>
    rcases s'.lookup row with _ | (_ | _ | _ | _ | _ | _) <;> simp +contextual [RowAgrees]

/-! ## Down the history and up again -/

/-- What `k` undos and `k` redos make of `b`. -/
structure Returned (b c : EditBuffer V) (k : ℕ) : Prop where
  tracked : Tracked c
  recorded : c.recorded = b.recorded
  undoStack : c.undoStack = b.undoStack
  redoStack : c.redoStack = b.redoStack
  marks : ∀ row, c.isPendingDelete row =
    ((b.undoStack.take k).findSome? (markAfter row)).getD (b.isPendingDelete row)

/-- One more action on the way down and on the way up. -/
theorem Returned.succ {rest : List (EditAction V)} (h : Tracked b) (hstack : b.undoStack = a :: rest)
    (hback : Returned b.undo.2 c k) : Returned b c.redo.2 (k + 1) := by
  have hundo : b.undo.2 =
      { b.undoAction a with undoStack := rest, redoStack := a :: b.redoStack } := by
    rw [undo, hstack]
  have hdone : Done a b.recorded := by
    have hundoable := h.history.undoable
    rw [hstack] at hundoable
    exact hundoable.1
  have hredoStack : c.redoStack = a :: b.redoStack := by rw [hback.redoStack, hundo]
  have hredo : c.redo.2 =
      { c.redoAction a with undoStack := a :: c.undoStack, redoStack := b.redoStack } := by
    rw [redo, hredoStack]
  refine ⟨tracked_redo hback.tracked, ?_, ?_, by rw [hredo], fun row => ?_⟩
  · have hrecorded : b.undo.2.recorded = revertRecorded a b.recorded := by
      rw [hundo]
      exact recorded_undoAction b a
    calc c.redo.2.recorded = applyRecorded a c.recorded := by
          rw [hredo]
          exact recorded_redoAction c a
      _ = b.recorded := by
          rw [hback.recorded, hrecorded, applyRecorded_revertRecorded a _ hdone]
  · rw [hredo, hback.undoStack, hundo, hstack]
  · have hmark : c.redo.2.isPendingDelete row = (markAfter row a).getD (c.isPendingDelete row) := by
      rw [hredo]
      exact isPendingDelete_redoAction c a row
    rw [hmark, hstack, List.take_succ_cons, List.findSome?_cons]
    cases hdecides : markAfter row a with
    | some mark => rfl
    | none =>
      have hkept : b.undo.2.isPendingDelete row = b.isPendingDelete row := by
        rw [hundo]
        exact isPendingDelete_undoAction b hdecides
      have hrest : b.undo.2.undoStack = rest := by rw [hundo]
      rw [Option.getD_none, hback.marks row, hrest, hkept]

theorem returned_of_tracked (h : Tracked b) (hk : k ≤ b.undoStack.length) :
    Returned b (redos k (undos k b)) k := by
  induction k generalizing b with
  | zero => exact ⟨h, rfl, rfl, rfl, fun _ => rfl⟩
  | succ k ih =>
    obtain ⟨a, rest, hstack⟩ := List.exists_cons_of_length_pos (Nat.zero_lt_of_lt hk)
    have hrest : k ≤ b.undo.2.undoStack.length := by
      rw [hstack] at hk
      rw [undo, hstack]
      exact Nat.le_of_succ_le_succ hk
    have hback := Returned.succ h hstack (ih (tracked_undo h) hrest)
    rwa [undos, Function.iterate_succ_apply, redos, Function.iterate_succ_apply']

/-- **Redo takes back undo exactly where no deletion mark was lost.** In every
buffer reached from a fresh one, `k` undos and `k` redos restore the
overrides, the row states, the pending inserts and both stacks iff each
row is marked as the newest of the `k` actions that decide its mark left
it. -/
theorem redos_undos_restore_iff {n : ℕ} {ops : List (BufferOp V)} {b : EditBuffer V}
    (hrun : Run BufferStep (fresh n) ops b) {k : ℕ} (hk : k ≤ b.undoStack.length) :
    ((redos k (undos k b)).SameContents b ∧ (redos k (undos k b)).undoStack = b.undoStack ∧
      (redos k (undos k b)).redoStack = b.redoStack) ↔
      ∀ row mark, (b.undoStack.take k).findSome? (markAfter row) = some mark →
        b.isPendingDelete row = mark := by
  have htracked := tracked_of_run hrun
  have hback := returned_of_tracked htracked hk
  rw [sameContents_iff]
  constructor
  · rintro ⟨⟨-, hstates⟩, -⟩ row mark hmark
    have hreturned := hback.marks row
    rw [hmark, isPendingDelete, hstates] at hreturned
    exact hreturned
  · intro hmarks
    refine ⟨⟨hback.recorded, ?_⟩, hback.undoStack, hback.redoStack⟩
    have hrows := hback.tracked.rows
    rw [show (redos k (undos k b)).overrides = b.overrides from congrArg Prod.fst hback.recorded]
      at hrows
    refine hrows.ext htracked.rows fun row => ?_
    have hreturned : (redos k (undos k b)).isPendingDelete row = b.isPendingDelete row := by
      rw [hback.marks row]
      cases hmark : (b.undoStack.take k).findSome? (markAfter row) with
      | none => rfl
      | some mark => exact (hmarks row mark hmark).symm
    exact decide_eq_decide.mp hreturned

/-- A marked row that was edited first: both actions come back. -/
theorem redos_undos_of_marked_row :
    let b := ((fresh 2 : EditBuffer String).perform (.setCell 0 1 "x")).perform (.markForDelete 0)
    (redos 2 (undos 2 b)).SameContents b := by
  have hrun : Run BufferStep (fresh 2 : EditBuffer String)
      [.edit (.setCell 0 1 "x"), .edit (.markForDelete 0)]
      (((fresh 2).perform (.setCell 0 1 "x")).perform (.markForDelete 0)) :=
    .snoc (.snoc (.nil _) rfl) rfl
  refine ((redos_undos_restore_iff hrun (k := 2) (by decide)).mpr fun row mark hmark => ?_).1
  by_cases hrow : row = 0
  · subst hrow
    cases hmark
    decide
  · have hstack : (((fresh 2 : EditBuffer String).perform (.setCell 0 1 "x")).perform
        (.markForDelete 0)).undoStack = [.markDelete 0, .setCell 0 1 none "x"] := by decide
    simp [hstack, markAfter, hrow] at hmark

/-- A marked row loses its mark to the undo of an edit, and gets it again from
one undo and one redo of the mark. -/
theorem redo_revives_delete_mark :
    let b := (((fresh 1 : EditBuffer String).perform (.markForDelete 0)).perform
      (.setCell 0 0 "x")).undo.2
    Run BufferStep (fresh 1) [.edit (.markForDelete 0), .edit (.setCell 0 0 "x"), .undo] b ∧
      1 ≤ b.undoStack.length ∧ b.isPendingDelete 0 = false ∧
      (redos 1 (undos 1 b)).isPendingDelete 0 = true ∧
      ¬ (redos 1 (undos 1 b)).SameContents b := by
  have hbefore : (((fresh 1 : EditBuffer String).perform (.markForDelete 0)).perform
      (.setCell 0 0 "x")).undo.2.isPendingDelete 0 = false := by decide
  refine ⟨.snoc (.snoc (.snoc (.nil _) rfl) rfl) rfl, by decide, hbefore, by decide,
    fun hsame => ?_⟩
  rw [isPendingDelete, ← hsame.2.1] at hbefore
  exact absurd hbefore (by decide)

end Dbflux.DataTable.EditBuffer

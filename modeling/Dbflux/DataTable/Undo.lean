import Dbflux.Lib.Transition
import Dbflux.Lib.History
import Dbflux.DataTable.EditBuffer

/-!
# Undo of the edit buffer

The undo history records what an edit did to the overrides and to the pending
inserts, and both are restored exactly. The state of a row is not recorded:
`undo` works it out again from the overrides the row has left. That is the
state the row had before the edit as long as the row was not already marked
for deletion.

Results:
* `tracked_of_run`: in every buffer a run reaches, the two stacks fit the
  overrides and inserts, and every row state agrees with the overrides.
* `undo_performed_restores_iff`: an edit followed by `undo` restores the
  contents exactly unless the edit set a cell of a row marked for deletion or
  marked such a row again.
-/

namespace Dbflux.DataTable

open Lib
open Option (bind_eq_bind elim_some map_eq_some_iff)
open Finmap (lookup_insert lookup_insert_of_ne lookup_erase lookup_erase_ne)

variable {V : Type}

/-! ## The operations as a transition system -/

/-- The operations that record an undo action. -/
inductive Edit (V : Type) where
  | setCell (row col : ℕ) (value : V)
  | clearCell (row col : ℕ)
  | markForDelete (row : ℕ)
  | unmarkDelete (row : ℕ)
  | addPendingInsertAt (anchor : InsertAnchor) (rowData : List V)
  | addPendingInsertAtIndex (position : ℕ) (anchor : InsertAnchor) (rowData : List V)
  | removePendingInsertByIdx (insertIdx : ℕ)
  | setInsertCell (insertIdx col : ℕ) (value : V)
  deriving DecidableEq, Repr

namespace EditBuffer

/-- The buffer after `edit`. -/
def perform (b : EditBuffer V) : Edit V → EditBuffer V
  | .setCell row col value => b.setCell row col value
  | .clearCell row col => b.clearCell row col
  | .markForDelete row => b.markForDelete row
  | .unmarkDelete row => b.unmarkDelete row
  | .addPendingInsertAt anchor rowData => b.addPendingInsertAt anchor rowData
  | .addPendingInsertAtIndex position anchor rowData =>
    b.addPendingInsertAtIndex position anchor rowData
  | .removePendingInsertByIdx insertIdx => b.removePendingInsertByIdx insertIdx
  | .setInsertCell insertIdx col value => b.setInsertCell insertIdx col value

end EditBuffer

/-- One operation on a buffer. -/
inductive BufferOp (V : Type) where
  | edit (e : Edit V)
  | undo
  | redo
  deriving DecidableEq, Repr

/-- The step relation of the buffer. -/
def BufferStep (b : EditBuffer V) : BufferOp V → EditBuffer V → Prop
  | .edit e, b' => b' = b.perform e
  | .undo, b' => b' = b.undo.2
  | .redo, b' => b' = b.redo.2

namespace EditBuffer

/-- The overrides, the row states and the pending inserts are the same. -/
def SameContents (b c : EditBuffer V) : Prop :=
  b.overrides = c.overrides ∧ b.rowStates = c.rowStates ∧ b.pendingInserts = c.pendingInserts

instance [DecidableEq V] (b c : EditBuffer V) : Decidable (b.SameContents c) :=
  inferInstanceAs (Decidable (_ ∧ _ ∧ _))

/-! ## The overrides of one row -/

variable (overrides : Finmap (fun _ : ℕ × ℕ => V))

theorem hasRow_iff (row : ℕ) :
    hasRow overrides row = true ↔ ∃ col v, overrides.lookup (row, col) = some v := by
  simp only [hasRow, decide_eq_true_eq, Finmap.mem_keys, Finmap.mem_iff]
  constructor
  · rintro ⟨⟨r, col⟩, ⟨v, hv⟩, rfl⟩
    exact ⟨col, v, hv⟩
  · rintro ⟨col, v, hv⟩
    exact ⟨(row, col), ⟨v, hv⟩, rfl⟩

theorem hasRow_insert_self (row col : ℕ) (v : V) :
    hasRow (overrides.insert (row, col) v) row = true :=
  (hasRow_iff _ _).mpr ⟨col, v, lookup_insert _⟩

variable {o : Finmap (fun _ : ℕ × ℕ => V)} {row col : ℕ} {b : EditBuffer V} {a : EditAction V}

theorem hasRow_congr {o' : Finmap (fun _ : ℕ × ℕ => V)}
    (h : ∀ col, o.lookup (row, col) = o'.lookup (row, col)) : hasRow o row = hasRow o' row := by
  rw [Bool.eq_iff_iff, hasRow_iff, hasRow_iff]
  simp [h]

theorem hasRow_insert_of_ne {other : ℕ} (col : ℕ) (v : V) (h : other ≠ row) :
    hasRow (overrides.insert (row, col) v) other = hasRow overrides other :=
  hasRow_congr fun c => lookup_insert_of_ne _ (by simp [h])

/-! ## What an action does to the overrides and the inserts -/

/-- The part of the contents the history records. -/
abbrev Recorded (V : Type) := Finmap (fun _ : ℕ × ℕ => V) × List (PendingInsert V)

def recorded (b : EditBuffer V) : Recorded V := (b.overrides, b.pendingInserts)

/-- The cell `col` of the pending insert `insertIdx`. -/
def insertCell? (inserts : List (PendingInsert V)) (insertIdx col : ℕ) : Option V :=
  inserts[insertIdx]? >>= fun insert => insert.data[col]?

def putInsertCell (inserts : List (PendingInsert V)) (insertIdx col : ℕ) (value : V) :
    List (PendingInsert V) :=
  inserts.modify insertIdx fun insert => { insert with data := insert.data.set col value }

variable {inserts : List (PendingInsert V)}

theorem putInsertCell_putInsertCell {insertIdx : ℕ} {old : V} (value : V)
    (h : insertCell? inserts insertIdx col = some old) :
    putInsertCell (putInsertCell inserts insertIdx col value) insertIdx col old = inserts := by
  simp only [insertCell?, bind_eq_bind, Option.bind_eq_some_iff] at h
  obtain ⟨insert, hi, hcol⟩ := h
  refine List.ext_getElem? fun i => ?_
  simp only [putInsertCell, List.getElem?_modify]
  by_cases hidx : insertIdx = i
  · subst hidx
    obtain ⟨hlt, hold⟩ := List.getElem?_eq_some_iff.mp hcol
    have hset : insert.data.set col old = insert.data := hold ▸ List.set_getElem_self hlt
    simp [hi, hset]
  · simp [hidx]

/-- The overrides and inserts after undoing an action. -/
def revertRecorded : EditAction V → Recorded V → Recorded V
  | .setCell row col (some old) _, (o, is) => (o.insert (row, col) old, is)
  | .setCell row col none _, (o, is) => (o.erase (row, col), is)
  | .clearCell row col replaced, (o, is) => (o.insert (row, col) replaced, is)
  | .markDelete _, r => r
  | .unmarkDelete _, r => r
  | .addInsert idx _ _, (o, is) => (o, is.eraseIdx idx)
  | .removeInsert idx anchor data, (o, is) =>
    (o, if idx ≤ is.length then is.insertIdx idx ⟨data, anchor⟩ else is ++ [⟨data, anchor⟩])
  | .setInsertCell idx col old _, (o, is) => (o, putInsertCell is idx col old)

/-- The overrides and inserts after redoing an action. -/
def applyRecorded : EditAction V → Recorded V → Recorded V
  | .setCell row col _ new, (o, is) => (o.insert (row, col) new, is)
  | .clearCell row col _, (o, is) => (o.erase (row, col), is)
  | .markDelete _, r => r
  | .unmarkDelete _, r => r
  | .addInsert idx anchor data, (o, is) =>
    (o, if idx ≤ is.length then is.insertIdx idx ⟨data, anchor⟩ else is ++ [⟨data, anchor⟩])
  | .removeInsert idx _ _, (o, is) => (o, is.eraseIdx idx)
  | .setInsertCell idx col _ new, (o, is) => (o, putInsertCell is idx col new)

/-- Where an action may be redone. -/
def Ready : EditAction V → Recorded V → Prop
  | .setCell row col old _, (o, _) => o.lookup (row, col) = old
  | .clearCell row col replaced, (o, _) => o.lookup (row, col) = some replaced
  | .markDelete _, _ => True
  | .unmarkDelete _, _ => True
  | .addInsert idx _ _, (_, is) => idx ≤ is.length
  | .removeInsert idx anchor data, (_, is) => is[idx]? = some ⟨data, anchor⟩
  | .setInsertCell idx col old _, (_, is) => insertCell? is idx col = some old

/-- What an action leaves. -/
def Done : EditAction V → Recorded V → Prop
  | .setCell row col _ new, (o, _) => o.lookup (row, col) = some new
  | .clearCell row col _, (o, _) => o.lookup (row, col) = none
  | .markDelete _, _ => True
  | .unmarkDelete _, _ => True
  | .addInsert idx anchor data, (_, is) => is[idx]? = some ⟨data, anchor⟩
  | .removeInsert idx _ _, (_, is) => idx ≤ is.length
  | .setInsertCell idx col _ new, (_, is) => insertCell? is idx col = some new

variable (a) (r : Recorded V)

theorem done_applyRecorded (h : Ready a r) :
    Done a (applyRecorded a r) := by
  obtain ⟨o, is⟩ := r
  cases a with
  | setCell row col old new => exact lookup_insert _
  | clearCell row col replaced => exact lookup_erase _ _
  | markDelete | unmarkDelete => trivial
  | addInsert idx anchor data =>
    have hidx : idx ≤ is.length := h
    simp [applyRecorded, Done, hidx, List.getElem?_insertIdx_self]
  | removeInsert idx anchor data =>
    have hlt : idx < is.length := (List.getElem?_eq_some_iff.mp h).1
    simp only [applyRecorded, Done, List.length_eraseIdx, if_pos hlt]
    omega
  | setInsertCell idx col old new =>
    simp only [Ready, insertCell?, bind_eq_bind, Option.bind_eq_some_iff] at h
    obtain ⟨insert, hi, hcol⟩ := h
    have hlt : col < insert.data.length := (List.getElem?_eq_some_iff.mp hcol).1
    simp [applyRecorded, Done, insertCell?, putInsertCell, hi, hlt]

theorem revertRecorded_applyRecorded (h : Ready a r) :
    revertRecorded a (applyRecorded a r) = r := by
  obtain ⟨o, is⟩ := r
  cases a with
  | setCell row col old new =>
    cases old with
    | some old => exact congrArg (·, is) (insert_insert_lookup h)
    | none => exact congrArg (·, is) (erase_insert_of_lookup_none h)
  | clearCell row col replaced => exact congrArg (·, is) (insert_erase_of_lookup h)
  | markDelete | unmarkDelete => rfl
  | addInsert idx anchor data =>
    have hidx : idx ≤ is.length := h
    simp [applyRecorded, revertRecorded, hidx, List.eraseIdx_insertIdx_self]
  | removeInsert idx anchor data =>
    obtain ⟨hlt, hget⟩ := List.getElem?_eq_some_iff.mp h
    have hle : idx ≤ (is.eraseIdx idx).length := by
      rw [List.length_eraseIdx, if_pos hlt]
      omega
    simp [applyRecorded, revertRecorded, hle, ← hget, List.insertIdx_eraseIdx_getElem]
  | setInsertCell idx col old new => exact congrArg (o, ·) (putInsertCell_putInsertCell new h)

/-- The action that undoes another one. -/
def inverse : EditAction V → EditAction V
  | .setCell row col (some old) new => .setCell row col (some new) old
  | .setCell row col none new => .clearCell row col new
  | .clearCell row col replaced => .setCell row col none replaced
  | .markDelete row => .unmarkDelete row
  | .unmarkDelete row => .markDelete row
  | .addInsert idx anchor data => .removeInsert idx anchor data
  | .removeInsert idx anchor data => .addInsert idx anchor data
  | .setInsertCell idx col old new => .setInsertCell idx col new old

theorem revertRecorded_eq : inverse (inverse a) = a ∧
    revertRecorded a r = applyRecorded (inverse a) r ∧ (Done a r ↔ Ready (inverse a) r) := by
  cases a with
  | setCell row col old new => cases old <;> exact ⟨rfl, rfl, .rfl⟩
  | _ => exact ⟨rfl, rfl, .rfl⟩

theorem ready_revertRecorded (h : Done a r) :
    Ready a (revertRecorded a r) := by
  obtain ⟨hinverse, hrevert, hdone⟩ := revertRecorded_eq a r
  have hready := done_applyRecorded _ _ (hdone.mp h)
  rwa [← hrevert, (revertRecorded_eq _ _).2.2, hinverse] at hready

theorem applyRecorded_revertRecorded (h : Done a r) :
    applyRecorded a (revertRecorded a r) = r := by
  obtain ⟨hinverse, hrevert, hdone⟩ := revertRecorded_eq a r
  have happly := revertRecorded_applyRecorded _ _ (hdone.mp h)
  rwa [← hrevert, (revertRecorded_eq _ _).2.1, hinverse] at happly

/-- The actions of the history, on the part of the contents it records. -/
def recordedActions (V : Type) : Reversible (EditAction V) (Recorded V) where
  apply := applyRecorded
  revert := revertRecorded
  Ready := Ready
  Done := Done
  done_apply := done_applyRecorded
  revert_apply := revertRecorded_applyRecorded
  ready_revert := ready_revertRecorded
  apply_revert := applyRecorded_revertRecorded

variable (b)

theorem recorded_undoAction :
    (b.undoAction a).recorded = revertRecorded a b.recorded := by
  cases a with
  | setCell row col old new =>
    cases old with
    | some old => rfl
    | none =>
      simp only [undoAction]
      split_ifs <;> rfl
  | clearCell row col replaced =>
    simp only [undoAction]
    split_ifs <;> rfl
  | markDelete row =>
    simp only [undoAction, liftDelete]
    split_ifs <;> rfl
  | _ => rfl

theorem recorded_redoAction :
    (b.redoAction a).recorded = applyRecorded a b.recorded := by
  cases a with
  | clearCell row col replaced =>
    simp only [redoAction, settleClearedRow]
    split_ifs <;> rfl
  | unmarkDelete row =>
    simp only [redoAction, liftDelete]
    split_ifs <;> rfl
  | _ => rfl

/-! ## Row states and overrides -/

/-- A row state agrees with whether the row holds overrides. A row marked for
deletion keeps its overrides, so nothing is said about it. -/
def RowAgrees (has : Bool) : Option RowState → Prop
  | none => has = false
  | some .dirty => has = true
  | some .pendingDelete => True
  | some _ => False

/-- Every row state agrees with the overrides. -/
def RowsAgree (o : Finmap (fun _ : ℕ × ℕ => V)) (states : Finmap (fun _ : ℕ => RowState)) : Prop :=
  ∀ row, RowAgrees (hasRow o row) (states.lookup row)

variable {a}

namespace RowsAgree

variable {o o' : Finmap (fun _ : ℕ × ℕ => V)} {states states' : Finmap (fun _ : ℕ => RowState)}
  {row col : ℕ} {v w : V}

variable (h : RowsAgree o states)
include h

/-- The rows agree again once the touched row does: the other rows keep their
overrides and their state. -/
theorem of_touched (row : ℕ)
    (hother : ∀ r, r ≠ row → hasRow o' r = hasRow o r ∧ states'.lookup r = states.lookup r)
    (hrow : RowAgrees (hasRow o' row) (states'.lookup row)) : RowsAgree o' states' := by
  intro r
  by_cases hr : r = row
  · exact hr ▸ hrow
  · obtain ⟨ho, hs⟩ := hother r hr
    rw [ho, hs]
    exact h r

theorem stage : RowsAgree (o.insert (row, col) v) (states.insert row .dirty) :=
  h.of_touched row (fun _ hr => ⟨hasRow_insert_of_ne o col v hr, lookup_insert_of_ne _ hr⟩)
    (by rw [lookup_insert]; exact hasRow_insert_self o row col v)

theorem restage (hcell : o.lookup (row, col) = some w) :
    RowsAgree (o.insert (row, col) v) states := by
  refine h.of_touched row (fun _ hr => ⟨hasRow_insert_of_ne o col v hr, rfl⟩) ?_
  have hhas : hasRow o row = true := (hasRow_iff o row).mpr ⟨col, w, hcell⟩
  rw [hasRow_insert_self, ← hhas]
  exact h row

theorem markDelete : RowsAgree o (states.insert row .pendingDelete) :=
  h.of_touched row (fun _ hr => ⟨rfl, lookup_insert_of_ne _ hr⟩)
    (by rw [lookup_insert]; trivial)

theorem liftDelete (row : ℕ) :
    RowsAgree o (if hasRow o row then states.insert row .dirty else states.erase row) := by
  refine h.of_touched row (fun r hr => ⟨rfl, ?_⟩) ?_
  · split_ifs
    · exact lookup_insert_of_ne _ hr
    · exact lookup_erase_ne hr
  · split_ifs with hhas
    · rw [lookup_insert]
      exact hhas
    · rw [lookup_erase]
      exact Bool.eq_false_iff.mpr hhas

omit h in
theorem hasRow_of_hasRow_erase (h : hasRow (o.erase (row, col)) row = true) :
    hasRow o row = true := by
  obtain ⟨c, v, hv⟩ := (hasRow_iff _ _).mp h
  rw [lookup_erase_eq] at hv
  split_ifs at hv
  exact (hasRow_iff _ _).mpr ⟨c, v, hv⟩

/-- `hkeep` is the guard of the source: a row keeps its state while it has
other overrides, and may keep it when it is marked for deletion. -/
theorem unstage (row col : ℕ) (keep : Prop) [Decidable keep]
    (hleft : hasRow (o.erase (row, col)) row = true → keep)
    (hkeep : keep → hasRow (o.erase (row, col)) row = true ∨
      states.lookup row = some .pendingDelete) :
    RowsAgree (o.erase (row, col)) (if keep then states else states.erase row) := by
  refine h.of_touched row
    (fun r hr => ⟨hasRow_congr fun c => lookup_erase_ne (by simp [hr]), ?_⟩) ?_
  · split_ifs
    · rfl
    · exact lookup_erase_ne hr
  · split_ifs with hk
    · rcases hkeep hk with hhas | hdel
      · have hrow := h row
        rw [hasRow_of_hasRow_erase hhas] at hrow
        rw [hhas]
        exact hrow
      · rw [hdel]
        trivial
    · rw [lookup_erase]
      exact Bool.eq_false_iff.mpr fun hhas => hk (hleft hhas)

omit h

end RowsAgree

/-! ## The row states after an operation -/

@[simp] theorem liftDelete_overrides (row : ℕ) :
    (b.liftDelete row).overrides = b.overrides := by
  unfold liftDelete
  split_ifs <;> rfl

theorem liftDelete_rowStates (row : ℕ) : (b.liftDelete row).rowStates =
      if hasRow b.overrides row then b.rowStates.insert row .dirty else b.rowStates.erase row := by
  unfold liftDelete rowHasOverrides
  split_ifs <;> rfl

@[simp] theorem settleClearedRow_overrides (row : ℕ) :
    (b.settleClearedRow row).overrides = b.overrides := by
  unfold settleClearedRow
  split_ifs <;> rfl

theorem settleClearedRow_rowStates (row : ℕ) :
    (b.settleClearedRow row).rowStates =
      if hasRow b.overrides row = true ∨ b.rowStates.lookup row = some .pendingDelete
      then b.rowStates else b.rowStates.erase row := by
  unfold settleClearedRow rowHasOverrides isPendingDelete
  split_ifs <;> simp_all

theorem undoAction_setCell_none (row col : ℕ) (new : V) :
    (b.undoAction (.setCell row col none new)).overrides = b.overrides.erase (row, col) ∧
    (b.undoAction (.setCell row col none new)).rowStates =
      if hasRow (b.overrides.erase (row, col)) row = true then b.rowStates
      else b.rowStates.erase row := by
  by_cases hhas : hasRow (b.overrides.erase (row, col)) row = true <;>
    simp [undoAction, rowHasOverrides, hhas]

theorem undoAction_clearCell (row col : ℕ) (replaced : V) :
    (b.undoAction (.clearCell row col replaced)).overrides
      = b.overrides.insert (row, col) replaced ∧
    (b.undoAction (.clearCell row col replaced)).rowStates =
      if b.rowStates.lookup row = some .pendingDelete then b.rowStates
      else b.rowStates.insert row .dirty := by
  simp only [undoAction, isPendingDelete, decide_eq_true_eq]
  split_ifs <;> exact ⟨rfl, rfl⟩

/-! ## Every edit redoes a fresh action -/

/-- The action `e` records, when it records one. -/
def actionOf (b : EditBuffer V) : Edit V → Option (EditAction V)
  | .setCell row col value => some (.setCell row col (b.overrides.lookup (row, col)) value)
  | .clearCell row col => (b.overrides.lookup (row, col)).map (.clearCell row col)
  | .markForDelete row => if row < b.baseRowCount then some (.markDelete row) else none
  | .unmarkDelete row => if b.isPendingDelete row then some (.unmarkDelete row) else none
  | .addPendingInsertAt anchor rowData =>
    some (.addInsert b.pendingInserts.length anchor rowData)
  | .addPendingInsertAtIndex position anchor rowData =>
    some (.addInsert (min position b.pendingInserts.length) anchor rowData)
  | .removePendingInsertByIdx idx =>
    b.pendingInserts[idx]?.map fun insert => .removeInsert idx insert.anchor insert.data
  | .setInsertCell idx col value =>
    (insertCell? b.pendingInserts idx col).map fun old => .setInsertCell idx col old value

/-- `b` after `action` was recorded and carried out. -/
def record (b : EditBuffer V) (action : EditAction V) : EditBuffer V :=
  { b.redoAction action with undoStack := (b.pushUndo action).undoStack, redoStack := [] }

theorem perform_eq (e : Edit V) :
    b.perform e = (b.actionOf e).elim b b.record := by
  cases e with
  | setCell row col value => rfl
  | clearCell row col =>
    simp only [perform, clearCell, actionOf]
    cases b.overrides.lookup (row, col) with
    | none => rfl
    | some replaced =>
      simp only [Option.map_some, elim_some, record, redoAction, settleClearedRow]
      split_ifs <;> simp_all [pushUndo, rowHasOverrides, isPendingDelete]
  | markForDelete row =>
    simp only [perform, markForDelete, actionOf]
    split_ifs <;> rfl
  | unmarkDelete row =>
    simp only [perform, unmarkDelete, actionOf]
    split_ifs with h
    · simp only [elim_some, record, redoAction, liftDelete]
      split_ifs <;> simp_all [pushUndo, rowHasOverrides]
    · rfl
  | addPendingInsertAt anchor rowData =>
    simp [perform, addPendingInsertAt, actionOf, record, redoAction, restoreInsert, pushUndo]
  | addPendingInsertAtIndex position anchor rowData =>
    simp [perform, addPendingInsertAtIndex, actionOf, record, redoAction, restoreInsert, pushUndo]
  | removePendingInsertByIdx idx =>
    simp only [perform, removePendingInsertByIdx, actionOf]
    cases b.pendingInserts[idx]? <;> rfl
  | setInsertCell idx col value =>
    simp only [perform, setInsertCell, actionOf, insertCell?]
    cases b.pendingInserts[idx]? >>= fun insert => insert.data[col]? <;> rfl

variable {b}

theorem ready_actionOf {e : Edit V} (h : b.actionOf e = some a) : Ready a b.recorded := by
  cases e with
  | setCell row col value =>
    cases h
    rfl
  | clearCell row col =>
    obtain ⟨replaced, hcell, rfl⟩ := map_eq_some_iff.mp h
    exact hcell
  | markForDelete | unmarkDelete =>
    obtain ⟨-, ha⟩ := Option.ite_none_right_eq_some.mp h
    cases ha
    trivial
  | addPendingInsertAt anchor rowData =>
    cases h
    exact le_refl b.pendingInserts.length
  | addPendingInsertAtIndex position anchor rowData =>
    cases h
    exact min_le_right _ _
  | removePendingInsertByIdx idx =>
    obtain ⟨insert, hget, rfl⟩ := map_eq_some_iff.mp h
    exact hget
  | setInsertCell idx col value =>
    obtain ⟨old, hget, rfl⟩ := map_eq_some_iff.mp h
    exact hget

/-! ## The invariant of reachable buffers -/

/-- What every operation preserves. -/
structure Tracked (b : EditBuffer V) : Prop where
  rows : RowsAgree b.overrides b.rowStates
  history : (recordedActions V).Coherent b.undoStack b.redoStack b.recorded

theorem tracked_fresh (n : ℕ) : Tracked (fresh n : EditBuffer V) :=
  ⟨fun row => by simp [fresh, hasRow, RowAgrees], trivial, trivial⟩

theorem rowsAgree_redoAction (a : EditAction V) (h : RowsAgree b.overrides b.rowStates) :
    RowsAgree (b.redoAction a).overrides (b.redoAction a).rowStates := by
  cases a with
  | setCell row col old new => exact h.stage
  | clearCell row col replaced =>
    simp only [redoAction, settleClearedRow_overrides, settleClearedRow_rowStates]
    exact h.unstage row col _ .inl id
  | markDelete row => exact h.markDelete
  | unmarkDelete row =>
    simp only [redoAction, liftDelete_overrides, liftDelete_rowStates]
    exact h.liftDelete row
  | addInsert | removeInsert | setInsertCell => exact h

theorem rowsAgree_undoAction (a : EditAction V) (h : RowsAgree b.overrides b.rowStates)
    (hdone : Done a b.recorded) :
    RowsAgree (b.undoAction a).overrides (b.undoAction a).rowStates := by
  cases a with
  | setCell row col old new =>
    cases old with
    | some old => exact h.restage hdone
    | none =>
      obtain ⟨ho, hs⟩ := undoAction_setCell_none b row col new
      rw [ho, hs]
      exact h.unstage row col _ id .inl
  | clearCell row col replaced =>
    obtain ⟨ho, hs⟩ := undoAction_clearCell b row col replaced
    rw [ho, hs]
    split_ifs with hdel
    · refine h.of_touched row (fun _ hr => ⟨hasRow_insert_of_ne _ col _ hr, rfl⟩) ?_
      rw [hdel]
      trivial
    · exact h.stage
  | markDelete row =>
    simp only [undoAction, liftDelete_overrides, liftDelete_rowStates]
    exact h.liftDelete row
  | unmarkDelete row => exact h.markDelete
  | addInsert | removeInsert | setInsertCell => exact h

theorem tracked_record (h : Tracked b) (ha : Ready a b.recorded) : Tracked (b.record a) := by
  refine ⟨rowsAgree_redoAction a h.rows, ?_⟩
  have hrec : (b.record a).recorded = applyRecorded a b.recorded := recorded_redoAction b a
  have hcoh : (recordedActions V).Coherent (a :: b.undoStack) [] (applyRecorded a b.recorded) :=
    Reversible.coherent_apply h.history ha
  rw [hrec]
  simp only [record, pushUndo]
  split_ifs
  · exact hcoh.dropLast
  · exact hcoh

theorem tracked_perform (h : Tracked b) (e : Edit V) : Tracked (b.perform e) := by
  rw [perform_eq]
  cases ha : b.actionOf e with
  | none => exact h
  | some a => exact tracked_record h (ready_actionOf ha)

theorem tracked_undo (h : Tracked b) : Tracked b.undo.2 := by
  unfold undo
  split
  next => exact h
  next a rest hstack =>
    have hcoh := h.history
    rw [hstack] at hcoh
    refine ⟨rowsAgree_undoAction a h.rows hcoh.undoable.1, ?_⟩
    have hrec := recorded_undoAction b a
    simp only [recorded] at hrec ⊢
    rw [hrec]
    exact Reversible.coherent_undo hcoh

theorem tracked_redo (h : Tracked b) : Tracked b.redo.2 := by
  unfold redo
  split
  next => exact h
  next a rest hstack =>
    have hcoh := h.history
    rw [hstack] at hcoh
    refine ⟨rowsAgree_redoAction a h.rows, ?_⟩
    have hrec := recorded_redoAction b a
    simp only [recorded] at hrec ⊢
    rw [hrec]
    exact Reversible.coherent_redo hcoh

theorem tracked_step {b' : EditBuffer V} (op : BufferOp V) (h : Tracked b)
    (hstep : BufferStep b op b') : Tracked b' := by
  cases op with
  | edit e => exact hstep ▸ tracked_perform h e
  | undo => exact hstep ▸ tracked_undo h
  | redo => exact hstep ▸ tracked_redo h

theorem tracked_of_run {n : ℕ} {ops : List (BufferOp V)} (hrun : Run BufferStep (fresh n) ops b) :
    Tracked b :=
  hrun.invariant (fun _ op _ => tracked_step op) (tracked_fresh n)

/-- **Row marks.** In every reachable buffer a row is shown dirty exactly if it is not marked
for deletion and one of its cells is dirty. -/
theorem rowState_eq_dirty_iff {n : ℕ} {ops : List (BufferOp V)}
    (hrun : Run BufferStep (fresh n) ops b) (row : ℕ) :
    b.rowState row = .dirty ↔ b.isPendingDelete row = false ∧ ∃ col, b.isCellDirty row col := by
  have hrow : RowAgrees _ _ := (tracked_of_run hrun).rows row
  have hcells : hasRow b.overrides row ↔ ∃ col, b.isCellDirty row col := by
    simp [hasRow_iff, isCellDirty, Option.isSome_iff_exists]
  rw [← hcells, rowState, isPendingDelete]
  cases hstate : b.rowStates.lookup row with rw [hstate] at hrow
  | none => simpa [RowAgrees] using hrow
  | some state => cases state <;> simp_all [RowAgrees]

theorem dirty_after_setCell : ((fresh 2 : EditBuffer ℕ).setCell 0 3 7).rowState 0 = .dirty :=
  (rowState_eq_dirty_iff (.snoc (.nil _) (show BufferStep (fresh 2) (.edit (.setCell 0 3 7)) _
    from rfl)) 0).mpr ⟨by decide, 3, by decide⟩

/-! ## Undoing the last edit -/

/-- The edits `undo` cannot take back: setting a cell of a row marked for
deletion makes the row dirty, and marking such a row again records an
action whose undo lifts the mark. -/
def LosesDeleteMark (b : EditBuffer V) : Edit V → Prop
  | .setCell row _ _ => b.isPendingDelete row = true
  | .markForDelete row => b.isPendingDelete row = true
  | _ => False

theorem sameContents_iff (b c : EditBuffer V) :
    b.SameContents c ↔ b.recorded = c.recorded ∧ b.rowStates = c.rowStates := by
  simp only [SameContents, recorded, Prod.mk.injEq]
  tauto

/-- The stacks play no part in what undoing an action does to the contents. -/
theorem undoAction_withStacks (b : EditBuffer V) (u r : List (EditAction V)) (a : EditAction V) :
    ({ b with undoStack := u, redoStack := r }.undoAction a).SameContents (b.undoAction a) := by
  rw [sameContents_iff, recorded_undoAction, recorded_undoAction]
  refine ⟨rfl, ?_⟩
  cases a with
  | setCell row col old new =>
    cases old with
    | some old => rfl
    | none => rw [(undoAction_setCell_none _ row col new).2, (undoAction_setCell_none b row col new).2]
  | clearCell row col replaced =>
    rw [(undoAction_clearCell _ row col replaced).2, (undoAction_clearCell b row col replaced).2]
  | markDelete row => simp only [undoAction, liftDelete_rowStates]
  | _ => rfl

/-- The overrides and the inserts are always restored, so only the row states
decide. -/
theorem undo_record_restores_iff (ha : Ready a b.recorded) : (b.record a).undo.2.SameContents b ↔
      ((b.redoAction a).undoAction a).rowStates = b.rowStates := by
  -- undo reverts the recorded action, however full the history was
  have hundo : (b.record a).undo.2.SameContents ((b.redoAction a).undoAction a) := by
    obtain ⟨rest, hrest⟩ : ∃ rest, (b.record a).undoStack = a :: rest := by
      simp only [record, pushUndo]
      cases b.undoStack with
      | nil => exact ⟨[], by simp [maxUndoHistory]⟩
      | cons x xs => split_ifs <;> exact ⟨_, rfl⟩
    rw [undo, hrest]
    exact undoAction_withStacks (b.redoAction a) _ _ a
  obtain ⟨hrec, hs⟩ := (sameContents_iff _ _).mp hundo
  rw [sameContents_iff, hrec, hs, recorded_undoAction, recorded_redoAction,
    revertRecorded_applyRecorded a _ ha]
  exact and_iff_right rfl

/-! The row states after an action and its undo, action by action. A state
    that agrees with the overrides is one the undo can work out. -/

theorem RowAgrees.eq_of_ne {has : Bool} {state : Option RowState} (h : RowAgrees has state)
    (hdel : state ≠ some .pendingDelete) : state = if has then some .dirty else none := by
  rcases state with - | - | - <;> simp_all [RowAgrees]

theorem settled_eq_iff {states : Finmap (fun _ : ℕ => RowState)} (h : RowsAgree o states) (row : ℕ) :
    (if hasRow o row then states.insert row .dirty else states.erase row) = states ↔
      states.lookup row ≠ some .pendingDelete := by
  constructor
  · intro heq hdel
    rw [← heq] at hdel
    split_ifs at hdel <;> simp [lookup_insert] at hdel
  · intro hdel
    have hstate := (h row).eq_of_ne hdel
    split_ifs at hstate ⊢
    · exact insert_of_lookup hstate
    · exact erase_of_lookup_none hstate

theorem rowStates_undo_setCell (row col : ℕ) (value : V) (hrows : RowsAgree b.overrides b.rowStates) :
    ((b.redoAction (.setCell row col (b.overrides.lookup (row, col)) value)).undoAction
      (.setCell row col (b.overrides.lookup (row, col)) value)).rowStates = b.rowStates ↔
      b.rowStates.lookup row ≠ some .pendingDelete := by
  rw [← settled_eq_iff hrows row]
  cases hcell : b.overrides.lookup (row, col) with
  | some old =>
    rw [if_pos ((hasRow_iff _ _).mpr ⟨col, old, hcell⟩)]
    rfl
  | none =>
    rw [(undoAction_setCell_none _ row col value).2]
    simp only [redoAction, erase_insert_of_lookup_none hcell, erase_insert_eq_erase]

theorem rowStates_undo_clearCell {replaced : V} (hrows : RowsAgree b.overrides b.rowStates)
    (hcell : b.overrides.lookup (row, col) = some replaced) :
    ((b.redoAction (.clearCell row col replaced)).undoAction
      (.clearCell row col replaced)).rowStates = b.rowStates := by
  have hhas : hasRow b.overrides row = true := (hasRow_iff _ _).mpr ⟨col, replaced, hcell⟩
  rw [(undoAction_clearCell _ row col replaced).2]
  simp only [redoAction, settleClearedRow_rowStates]
  by_cases hdel : b.rowStates.lookup row = some .pendingDelete
  · simp [hdel]
  · have hlookup := (hrows row).eq_of_ne hdel
    rw [if_pos hhas] at hlookup
    have hdirty := insert_of_lookup hlookup
    by_cases hleft : hasRow (b.overrides.erase (row, col)) row = true
    · simp [hdel, hleft, hdirty]
    · simp [hdel, hleft, insert_erase_of_lookup hlookup]

/-- **Undo takes back the last edit exactly when it did not run over a
deletion mark.** For every buffer reached from a fresh one and every edit
that changes it, the edit followed by `undo` restores the overrides, the
row states and the pending inserts iff the edit neither set a cell of a row
marked for deletion nor marked such a row again. -/
theorem undo_performed_restores_iff {n : ℕ} {ops : List (BufferOp V)} {b : EditBuffer V}
    (hrun : Run BufferStep (fresh n) ops b) (e : Edit V) (hchanges : b.perform e ≠ b) :
    (b.perform e).undo.2.SameContents b ↔ ¬ b.LosesDeleteMark e := by
  have hrows := (tracked_of_run hrun).rows
  cases ha : b.actionOf e with
  | none =>
    rw [perform_eq, ha] at hchanges
    exact absurd rfl hchanges
  | some a =>
    rw [perform_eq, ha, elim_some, undo_record_restores_iff (ready_actionOf ha)]
    cases e with
    | setCell row col value =>
      cases ha
      rw [rowStates_undo_setCell row col value hrows]
      simp [LosesDeleteMark, isPendingDelete]
    | clearCell row col =>
      obtain ⟨replaced, hcell, rfl⟩ := map_eq_some_iff.mp ha
      exact iff_of_true (rowStates_undo_clearCell hrows hcell) not_false
    | markForDelete row =>
      obtain ⟨-, ha⟩ := Option.ite_none_right_eq_some.mp ha
      cases ha
      simp only [undoAction, liftDelete_rowStates, redoAction, Finmap.insert_insert,
        erase_insert_eq_erase]
      rw [settled_eq_iff hrows row]
      simp [LosesDeleteMark, isPendingDelete]
    | unmarkDelete row =>
      obtain ⟨hdel, ha⟩ := Option.ite_none_right_eq_some.mp ha
      cases ha
      refine iff_of_true ?_ not_false
      simp only [undoAction, redoAction, liftDelete_rowStates]
      split_ifs
      · exact insert_insert_lookup (of_decide_eq_true hdel)
      · exact insert_erase_of_lookup (of_decide_eq_true hdel)
    | addPendingInsertAt | addPendingInsertAtIndex =>
      cases ha
      exact iff_of_true rfl not_false
    | removePendingInsertByIdx idx =>
      obtain ⟨insert, -, rfl⟩ := map_eq_some_iff.mp ha
      exact iff_of_true rfl not_false
    | setInsertCell idx col value =>
      obtain ⟨old, -, rfl⟩ := map_eq_some_iff.mp ha
      exact iff_of_true rfl not_false

/-- Marking an edited row for deletion and undoing it keeps the edit. -/
theorem undo_mark_of_edited_row :
    let b := (fresh 2 : EditBuffer String).perform (.setCell 0 1 "x")
    (b.perform (.markForDelete 0)).undo.2.SameContents b := by
  have hrun : Run BufferStep (fresh 2 : EditBuffer String) [.edit (.setCell 0 1 "x")]
      ((fresh 2).perform (.setCell 0 1 "x")) := .snoc (.nil _) rfl
  refine (undo_performed_restores_iff hrun (.markForDelete 0) ?_).mpr ?_
  · exact fun h => absurd (congrArg (·.undoStack.length) h) (by decide)
  · simp [LosesDeleteMark, perform, setCell, isPendingDelete, lookup_insert]

/-- A cell set in a row marked for deletion: undo takes the cell back, but the
row is no longer marked. -/
theorem undo_setCell_loses_delete_mark :
    let b := (fresh 1 : EditBuffer String).perform (.markForDelete 0)
    Run BufferStep (fresh 1) [.edit (.markForDelete 0)] b ∧ b.perform (.setCell 0 0 "x") ≠ b ∧
      b.isPendingDelete 0 = true ∧ (b.perform (.setCell 0 0 "x")).undo.2.isPendingDelete 0 = false ∧
      ¬ (b.perform (.setCell 0 0 "x")).undo.2.SameContents b := by
  have hafter : (((fresh 1 : EditBuffer String).perform (.markForDelete 0)).perform
      (.setCell 0 0 "x")).undo.2.isPendingDelete 0 = false := by decide
  refine ⟨.snoc (.nil _) rfl, fun h => absurd (congrArg (·.undoStack.length) h) (by decide),
    by decide, hafter, fun hsame => ?_⟩
  rw [isPendingDelete, hsame.2.1] at hafter
  exact absurd hafter (by decide)

end EditBuffer

end Dbflux.DataTable

import Mathlib

/-!
# The edit buffer of a data table

`EditBuffer` (`dbflux_components/src/components/data_table/model.rs`)
is the overlay of staged edits over the read-only rows of a table: cell
overrides, the state of each edited row, the rows still to be inserted and
the undo history. The two `HashMap`s are `Finmap`s, which have no order
either, and the cell value is a type variable: no operation below looks into
a cell.
-/

namespace Dbflux.DataTable

/-- `RowState` (`dbflux_core/src/data/crud.rs`, lines 803–822). -/
inductive RowState where
  | clean
  | dirty
  | saving
  | error (message : String)
  | pendingInsert
  | pendingDelete
  deriving DecidableEq, Repr

/-- `InsertAnchor` (lines 643–650): where a pending insert is
shown among the base rows. -/
inductive InsertAnchor where
  | beforeFirst
  | after (row : ℕ)
  | atEnd
  deriving DecidableEq, Repr

/-- `PendingInsert` (lines 654–659). -/
structure PendingInsert (V : Type) where
  data : List V
  anchor : InsertAnchor
  deriving DecidableEq, Repr

/-- `EditAction` (lines 795–833): one entry of the undo history. -/
inductive EditAction (V : Type) where
  | setCell (row col : ℕ) (oldValue : Option V) (newValue : V)
  | clearCell (row col : ℕ) (replacedValue : V)
  | markDelete (row : ℕ)
  | unmarkDelete (row : ℕ)
  | addInsert (insertIdx : ℕ) (anchor : InsertAnchor) (data : List V)
  | removeInsert (insertIdx : ℕ) (anchor : InsertAnchor) (data : List V)
  | setInsertCell (insertIdx col : ℕ) (oldValue newValue : V)
  deriving DecidableEq, Repr

/-- `EditBuffer` (lines 843–861). Both stacks are kept with the
newest action first. -/
structure EditBuffer (V : Type) where
  overrides : Finmap (fun _ : ℕ × ℕ => V)
  rowStates : Finmap (fun _ : ℕ => RowState)
  pendingInserts : List (PendingInsert V)
  baseRowCount : ℕ
  undoStack : List (EditAction V)
  redoStack : List (EditAction V)
  deriving DecidableEq

/-- `MAX_UNDO_HISTORY`. -/
def maxUndoHistory : ℕ := 500

namespace EditBuffer

variable {V : Type}

/-- The buffer of a table of `baseRowCount` rows nobody has edited:
`EditBuffer::new` followed by `set_base_row_count`, which is also what
`reset_for_base` leaves. -/
def fresh (baseRowCount : ℕ) : EditBuffer V where
  overrides := ∅
  rowStates := ∅
  pendingInserts := []
  baseRowCount := baseRowCount
  undoStack := []
  redoStack := []

/-! ## Reading -/

/-- `overrides.keys().any(|&(r, _)| r == row)`. -/
def hasRow (overrides : Finmap (fun _ : ℕ × ℕ => V)) (row : ℕ) : Bool :=
  decide (∃ key ∈ overrides.keys, key.1 = row)

/-- `has_other_overrides` and `has_changes` of the source: some cell of `row`
is staged. -/
def rowHasOverrides (b : EditBuffer V) (row : ℕ) : Bool :=
  hasRow b.overrides row

/-- `is_cell_dirty`. -/
def isCellDirty (b : EditBuffer V) (row col : ℕ) : Bool :=
  (b.overrides.lookup (row, col)).isSome

/-- `row_state`. -/
def rowState (b : EditBuffer V) (row : ℕ) : RowState :=
  (b.rowStates.lookup row).getD .clean

/-- `is_pending_delete`. -/
def isPendingDelete (b : EditBuffer V) (row : ℕ) : Bool :=
  decide (b.rowStates.lookup row = some .pendingDelete)

/-! ## Recorded edits -/

/-- `push_undo` (lines 869–876). -/
def pushUndo (b : EditBuffer V) (action : EditAction V) : EditBuffer V :=
  let stack := action :: b.undoStack
  { b with
    undoStack := if stack.length > maxUndoHistory then stack.dropLast else stack
    redoStack := [] }

/-- `set_cell` (lines 889–901). -/
def setCell (b : EditBuffer V) (row col : ℕ) (value : V) : EditBuffer V :=
  let oldValue := b.overrides.lookup (row, col)
  let b := b.pushUndo (.setCell row col oldValue value)
  { b with
    overrides := b.overrides.insert (row, col) value
    rowStates := b.rowStates.insert row .dirty }

/-- The row state after a staged value was dropped, in `clear_cell` and in the
`ClearCell` arm of `redo`: `if !has_other_overrides &&
!self.is_pending_delete(row) { self.row_states.remove(&row); }`. -/
def settleClearedRow (b : EditBuffer V) (row : ℕ) : EditBuffer V :=
  if !b.rowHasOverrides row && !b.isPendingDelete row then
    { b with rowStates := b.rowStates.erase row }
  else b

/-- `clear_cell` (lines 904–919). -/
def clearCell (b : EditBuffer V) (row col : ℕ) : EditBuffer V :=
  match b.overrides.lookup (row, col) with
  | none => b
  | some replacedValue =>
    let b := { b with overrides := b.overrides.erase (row, col) }
    (b.pushUndo (.clearCell row col replacedValue)).settleClearedRow row

/-- `mark_for_delete` (lines 1305–1310). -/
def markForDelete (b : EditBuffer V) (row : ℕ) : EditBuffer V :=
  if row < b.baseRowCount then
    let b := b.pushUndo (.markDelete row)
    { b with rowStates := b.rowStates.insert row .pendingDelete }
  else b

/-- `lift_delete` (lines 1326–1332). -/
def liftDelete (b : EditBuffer V) (row : ℕ) : EditBuffer V :=
  if b.rowHasOverrides row then { b with rowStates := b.rowStates.insert row .dirty }
  else { b with rowStates := b.rowStates.erase row }

/-- `unmark_delete` (lines 1314–1321). -/
def unmarkDelete (b : EditBuffer V) (row : ℕ) : EditBuffer V :=
  if b.isPendingDelete row then (b.pushUndo (.unmarkDelete row)).liftDelete row else b

/-- `add_pending_insert_at` (lines 1174–1192). The returned index
is the old number of pending inserts. -/
def addPendingInsertAt (b : EditBuffer V) (anchor : InsertAnchor) (rowData : List V) :
    EditBuffer V :=
  let b := b.pushUndo (.addInsert b.pendingInserts.length anchor rowData)
  { b with pendingInserts := b.pendingInserts ++ [⟨rowData, anchor⟩] }

/-- `add_pending_insert_at_index` (lines 1200–1222). -/
def addPendingInsertAtIndex (b : EditBuffer V) (position : ℕ) (anchor : InsertAnchor)
    (rowData : List V) : EditBuffer V :=
  let insertIdx := min position b.pendingInserts.length
  let b := b.pushUndo (.addInsert insertIdx anchor rowData)
  { b with pendingInserts := b.pendingInserts.insertIdx insertIdx ⟨rowData, anchor⟩ }

/-- `remove_pending_insert_by_idx` (lines 1387–1409). -/
def removePendingInsertByIdx (b : EditBuffer V) (insertIdx : ℕ) : EditBuffer V :=
  match b.pendingInserts[insertIdx]? with
  | none => b
  | some insert =>
    let b := b.pushUndo (.removeInsert insertIdx insert.anchor insert.data)
    { b with pendingInserts := b.pendingInserts.eraseIdx insertIdx }

/-- `if let Some(insert) = self.pending_inserts.get_mut(insert_idx) && col <
insert.data.len() { insert.data[col] = value; }`. -/
def writeInsertCell (b : EditBuffer V) (insertIdx col : ℕ) (value : V) : EditBuffer V :=
  { b with
    pendingInserts := b.pendingInserts.modify insertIdx fun insert =>
      { insert with data := insert.data.set col value } }

/-- `set_insert_cell` (lines 1430–1455). -/
def setInsertCell (b : EditBuffer V) (insertIdx col : ℕ) (value : V) : EditBuffer V :=
  match b.pendingInserts[insertIdx]? >>= fun insert => insert.data[col]? with
  | none => b
  | some old =>
    (b.pushUndo (.setInsertCell insertIdx col old value)).writeInsertCell insertIdx col value

/-! ## Undo and redo -/

/-- `if insert_idx <= self.pending_inserts.len() { insert } else { push }`. -/
def restoreInsert (b : EditBuffer V) (insertIdx : ℕ) (insert : PendingInsert V) :
    EditBuffer V :=
  { b with
    pendingInserts :=
      if insertIdx ≤ b.pendingInserts.length then b.pendingInserts.insertIdx insertIdx insert
      else b.pendingInserts ++ [insert] }

/-- `if insert_idx < self.pending_inserts.len() { remove }`. -/
def dropInsert (b : EditBuffer V) (insertIdx : ℕ) : EditBuffer V :=
  { b with pendingInserts := b.pendingInserts.eraseIdx insertIdx }

/-- What the arms of `undo` (lines 1477–1592) do to the contents. -/
def undoAction (b : EditBuffer V) : EditAction V → EditBuffer V
  | .setCell row col (some old) _ =>
    { b with overrides := b.overrides.insert (row, col) old }
  | .setCell row col none _ =>
    let b := { b with overrides := b.overrides.erase (row, col) }
    if b.rowHasOverrides row then b else { b with rowStates := b.rowStates.erase row }
  | .clearCell row col replacedValue =>
    let b := { b with overrides := b.overrides.insert (row, col) replacedValue }
    if b.isPendingDelete row then b else { b with rowStates := b.rowStates.insert row .dirty }
  | .markDelete row => b.liftDelete row
  | .unmarkDelete row => { b with rowStates := b.rowStates.insert row .pendingDelete }
  | .addInsert insertIdx _ _ => b.dropInsert insertIdx
  | .removeInsert insertIdx anchor data => b.restoreInsert insertIdx ⟨data, anchor⟩
  | .setInsertCell insertIdx col oldValue _ => b.writeInsertCell insertIdx col oldValue

/-- What the arms of `redo` (lines 1603–1707) do to the contents. -/
def redoAction (b : EditBuffer V) : EditAction V → EditBuffer V
  | .setCell row col _ newValue =>
    { b with
      overrides := b.overrides.insert (row, col) newValue
      rowStates := b.rowStates.insert row .dirty }
  | .clearCell row col _ =>
    { b with overrides := b.overrides.erase (row, col) }.settleClearedRow row
  | .markDelete row => { b with rowStates := b.rowStates.insert row .pendingDelete }
  | .unmarkDelete row => b.liftDelete row
  | .addInsert insertIdx anchor data => b.restoreInsert insertIdx ⟨data, anchor⟩
  | .removeInsert insertIdx _ _ => b.dropInsert insertIdx
  | .setInsertCell insertIdx col _ newValue => b.writeInsertCell insertIdx col newValue

/-- `undo` (lines 1472–1595): whether an action was undone, and
the buffer after it. -/
def undo (b : EditBuffer V) : Bool × EditBuffer V :=
  match b.undoStack with
  | [] => (false, b)
  | action :: rest =>
    (true, { b.undoAction action with undoStack := rest, redoStack := action :: b.redoStack })

/-- `redo` (lines 1598–1710). -/
def redo (b : EditBuffer V) : Bool × EditBuffer V :=
  match b.redoStack with
  | [] => (false, b)
  | action :: rest =>
    (true, { b.redoAction action with undoStack := action :: b.undoStack, redoStack := rest })

end EditBuffer

end Dbflux.DataTable

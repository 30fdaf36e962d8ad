import Mathlib

/-!
# Reversible actions and undo histories

An action has a forward effect and a backward effect on a state, each exact
on the states it is meant for: `Ready` is where it may be applied and `Done`
is what it leaves. Two stacks are coherent with a state when each can be
worked off action by action. Nothing else is assumed, so a stack may lose its
oldest entries.

Results:
* `Reversible.coherent_apply`, `coherent_undo`, `coherent_redo`: recording an
  action, undoing and redoing keep the stacks coherent.
* `insert_insert_lookup`, `erase_insert_of_lookup_none`,
  `insert_erase_of_lookup`: writing and dropping one key of a finite map are
  reversible.
-/

namespace Dbflux.Lib

universe u v

/-- A type of actions on states `ω` with exact inverses. -/
structure Reversible (α : Type u) (ω : Type v) where
  apply : α → ω → ω
  revert : α → ω → ω
  Ready : α → ω → Prop
  Done : α → ω → Prop
  done_apply : ∀ a o, Ready a o → Done a (apply a o)
  revert_apply : ∀ a o, Ready a o → revert a (apply a o) = o
  ready_revert : ∀ a o, Done a o → Ready a (revert a o)
  apply_revert : ∀ a o, Done a o → apply a (revert a o) = o

namespace Reversible

variable {α : Type u} {ω : Type v} (R : Reversible α ω)

/-- The stack, newest action first, can be undone from `o` down to its end. -/
def Undoable : List α → ω → Prop
  | [], _ => True
  | a :: rest, o => R.Done a o ∧ Undoable rest (R.revert a o)

/-- The stack can be redone from `o` down to its end. -/
def Redoable : List α → ω → Prop
  | [], _ => True
  | a :: rest, o => R.Ready a o ∧ Redoable rest (R.apply a o)

/-- Both stacks of a history fit the state they belong to. -/
structure Coherent (undo redo : List α) (o : ω) : Prop where
  undoable : R.Undoable undo o
  redoable : R.Redoable redo o

variable {R} {undo redo : List α} {a : α} {o : ω}

theorem Undoable.dropLast : ∀ {undo : List α} {o : ω},
    R.Undoable undo o → R.Undoable undo.dropLast o
  | [], _, _ => trivial
  | [_], _, _ => trivial
  | _ :: _ :: _, _, ⟨hdone, hrest⟩ => ⟨hdone, hrest.dropLast⟩

/-- A recorded action extends the undo stack and empties the redo stack. -/
theorem coherent_apply (h : R.Coherent undo redo o) (ha : R.Ready a o) :
    R.Coherent (a :: undo) [] (R.apply a o) := by
  refine ⟨⟨R.done_apply a o ha, ?_⟩, trivial⟩
  rw [R.revert_apply a o ha]
  exact h.undoable

theorem coherent_undo (h : R.Coherent (a :: undo) redo o) :
    R.Coherent undo (a :: redo) (R.revert a o) := by
  obtain ⟨⟨hdone, hrest⟩, hredo⟩ := h
  refine ⟨hrest, R.ready_revert a o hdone, ?_⟩
  rw [R.apply_revert a o hdone]
  exact hredo

theorem coherent_redo (h : R.Coherent undo (a :: redo) o) :
    R.Coherent (a :: undo) redo (R.apply a o) := by
  obtain ⟨hundo, hready, hrest⟩ := h
  refine ⟨⟨R.done_apply a o hready, ?_⟩, hrest⟩
  rw [R.revert_apply a o hready]
  exact hundo

/-- Forgetting the oldest action of a history keeps it coherent. -/
theorem Coherent.dropLast (h : R.Coherent undo redo o) : R.Coherent undo.dropLast redo o :=
  ⟨h.undoable.dropLast, h.redoable⟩

end Reversible

/-! ## One key of a finite map -/

section Maps

variable {κ : Type u} {V : Type v} [DecidableEq κ] (m : Finmap (fun _ : κ => V)) {k : κ} {v w : V}

theorem lookup_insert_eq (k j : κ) (v : V) :
    (m.insert k v).lookup j = if j = k then some v else m.lookup j := by
  split_ifs with h
  · rw [h, Finmap.lookup_insert]
  · exact Finmap.lookup_insert_of_ne _ h

theorem lookup_erase_eq (k j : κ) :
    (m.erase k).lookup j = if j = k then none else m.lookup j := by
  split_ifs with h
  · rw [h, Finmap.lookup_erase]
  · exact Finmap.lookup_erase_ne h

theorem erase_insert_eq_erase (k : κ) (v : V) :
    (m.insert k v).erase k = m.erase k := by
  refine Finmap.ext_lookup fun j => ?_
  simp only [lookup_erase_eq, lookup_insert_eq]
  split_ifs <;> rfl

variable {m}

theorem insert_insert_lookup (h : m.lookup k = some w) : (m.insert k v).insert k w = m := by
  refine Finmap.ext_lookup fun j => ?_
  simp only [lookup_insert_eq]
  split_ifs with hj
  · rw [hj, h]
  · rfl

theorem erase_insert_of_lookup_none (h : m.lookup k = none) : (m.insert k v).erase k = m := by
  refine Finmap.ext_lookup fun j => ?_
  simp only [lookup_insert_eq, lookup_erase_eq]
  split_ifs with hj
  · rw [hj, h]
  · rfl

theorem insert_erase_of_lookup (h : m.lookup k = some w) : (m.erase k).insert k w = m := by
  refine Finmap.ext_lookup fun j => ?_
  simp only [lookup_insert_eq, lookup_erase_eq]
  split_ifs with hj
  · rw [hj, h]
  · rfl

theorem insert_of_lookup (h : m.lookup k = some w) : m.insert k w = m := by
  refine Finmap.ext_lookup fun j => ?_
  rw [lookup_insert_eq]
  split_ifs with hj
  · rw [hj, h]
  · rfl

theorem erase_of_lookup_none (h : m.lookup k = none) : m.erase k = m := by
  refine Finmap.ext_lookup fun j => ?_
  rw [lookup_erase_eq]
  split_ifs with hj
  · rw [hj, h]
  · rfl

end Maps

end Dbflux.Lib

import Mathlib

/-!
# Maps iterated in key order

A map from the keys of a linear order, kept as the list of its entries in
increasing key order, which is the order in which it is iterated.

Results:
* `get?_set`, `get?_erase`: what an update does to every key.
* `mem_entries_iff`: the entries are exactly the keys with their values.
-/

namespace Dbflux.Lib

open List (mem_cons pairwise_cons)

variable {K V : Type} [LinearOrder K]

/-- Entries in strictly increasing key order. -/
structure OrderedMap (K V : Type) [LinearOrder K] where
  entries : List (K × V)
  sorted : entries.Pairwise fun a b => a.1 < b.1

namespace OrderedMap

/-- The map without entries. -/
def empty : OrderedMap K V := ⟨[], List.Pairwise.nil⟩

/-- The value of a key in a list of entries. -/
def find (key : K) : List (K × V) → Option V
  | [] => none
  | (k, v) :: rest => if k = key then some v else find key rest

def get? (m : OrderedMap K V) (key : K) : Option V := find key m.entries

/-- Put `(key, value)` at its place, replacing an entry of that key. -/
def place (key : K) (value : V) : List (K × V) → List (K × V)
  | [] => [(key, value)]
  | (k, v) :: rest =>
    if key < k then (key, value) :: (k, v) :: rest
    else if key = k then (key, value) :: rest
    else (k, v) :: place key value rest

theorem mem_place {key : K} {value : V} {l : List (K × V)} {e : K × V}
    (h : e ∈ place key value l) : e = (key, value) ∨ e ∈ l := by
  induction l with
  | nil => simpa [place] using h
  | cons head rest ih =>
    simp only [place] at h
    split_ifs at h with hlt heq
    · exact mem_cons.mp h
    · rcases mem_cons.mp h with rfl | hrest
      · exact .inl rfl
      · exact Or.inr (List.mem_cons_of_mem _ hrest)
    · rcases mem_cons.mp h with rfl | hrest
      · exact Or.inr List.mem_cons_self
      · exact (ih hrest).imp_right (List.mem_cons_of_mem _)

variable (key : K) (value : V)

theorem place_sorted {l : List (K × V)} (h : l.Pairwise fun a b => a.1 < b.1) :
    (place key value l).Pairwise fun a b => a.1 < b.1 := by
  induction l with
  | nil => exact List.pairwise_singleton _ _
  | cons head rest ih =>
    obtain ⟨hhead, hrest⟩ := pairwise_cons.mp h
    simp only [place]
    split_ifs with hlt heq
    · refine pairwise_cons.mpr ⟨?_, h⟩
      intro e he
      rcases mem_cons.mp he with rfl | he
      · exact hlt
      · exact lt_trans hlt (hhead e he)
    · exact pairwise_cons.mpr ⟨fun e he => heq ▸ hhead e he, hrest⟩
    · refine pairwise_cons.mpr ⟨fun e he => ?_, ih hrest⟩
      rcases mem_place he with rfl | he
      · exact lt_of_le_of_ne (not_lt.mp hlt) (Ne.symm heq)
      · exact hhead e he

/-- Set the value of a key. -/
def set (m : OrderedMap K V) (key : K) (value : V) : OrderedMap K V :=
  ⟨place key value m.entries, place_sorted key value m.sorted⟩

/-- Remove a key. -/
def erase (m : OrderedMap K V) (key : K) : OrderedMap K V :=
  ⟨m.entries.filter fun e => decide (e.1 ≠ key), m.sorted.filter _⟩

theorem find_place (l : List (K × V)) (h : l.Pairwise fun a b => a.1 < b.1) (k : K) :
    find k (place key value l) = if k = key then some value else find k l := by
  induction l with
  | nil => simp [place, find, eq_comm]
  | cons head rest ih =>
    obtain ⟨k', v'⟩ := head
    by_cases hlt : key < k'
    · rw [place, if_pos hlt, find]
      simp [eq_comm]
    · by_cases heq : key = k'
      · subst heq
        rw [place, if_neg hlt, if_pos rfl, find, find]
        by_cases hk : key = k
        · rw [if_pos hk, if_pos hk.symm]
        · rw [if_neg hk, if_neg (Ne.symm hk), if_neg hk]
      · rw [place, if_neg hlt, if_neg heq, find, find, ih (pairwise_cons.mp h).2]
        by_cases hk : k = key
        · have hne : k' ≠ k := fun hk' => heq (hk.symm.trans hk'.symm)
          rw [if_neg hne, if_pos hk, if_pos hk]
        · rw [if_neg hk, if_neg hk]

variable (m : OrderedMap K V)

theorem get?_set (k : K) : (m.set key value).get? k = if k = key then some value else m.get? k :=
  find_place key value m.entries m.sorted k

theorem find_filter (l : List (K × V)) (k : K) :
    find k (l.filter fun e => decide (e.1 ≠ key)) = if k = key then none else find k l := by
  induction l with
  | nil => simp [find]
  | cons head rest ih =>
    obtain ⟨k', v'⟩ := head
    by_cases hkey : k' = key
    · rw [List.filter_cons_of_neg (by simpa using hkey), ih, find]
      split_ifs with hk hk' <;> first | rfl | exact absurd (hk'.symm.trans hkey) hk
    · rw [List.filter_cons_of_pos (by simpa using hkey), find, ih, find]
      split_ifs with hk hk' <;> first | rfl | exact absurd (hk.trans hk') hkey

theorem get?_erase (key k : K) : (m.erase key).get? k = if k = key then none else m.get? k :=
  find_filter key m.entries k

theorem mem_entries_iff : (key, value) ∈ m.entries ↔ m.get? key = some value := by
  obtain ⟨l, h⟩ := m
  show (key, value) ∈ l ↔ find key l = some value
  induction l with
  | nil => simp [find]
  | cons head rest ih =>
    obtain ⟨k, v⟩ := head
    obtain ⟨hhead, hrest⟩ := pairwise_cons.mp h
    rw [find, mem_cons, ih hrest]
    by_cases hk : k = key
    · rw [if_pos hk]
      constructor
      · rintro (heq | hmem)
        · rw [(Prod.mk.inj heq).2]
        · have := hhead _ ((ih hrest).mpr hmem)
          exact absurd this (by rw [hk]; exact lt_irrefl _)
      · intro heq
        exact .inl (by rw [hk, Option.some.inj heq])
    · rw [if_neg hk]
      constructor
      · rintro (heq | hmem)
        · exact absurd (Prod.mk.inj heq).1.symm hk
        · exact hmem
      · exact .inr

end OrderedMap

end Dbflux.Lib

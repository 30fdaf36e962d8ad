import Mathlib

/-!
# Boolean expressions with precedence

Expressions written with `AND`, `OR` and parentheses over arbitrary atoms, where `AND` binds
tighter than `OR`. `evaluate` reads a whole expression and computes it; an atom that has no
value makes it fail.

Results:
* `evaluate_of_denotes`: an expression of the grammar has the value the grammar gives it.
* `Denotes.intercalate`: values of joined expressions.
-/

namespace Dbflux.Lib

open List

/-- The words of an expression. -/
inductive BoolToken (A : Type)
  | atom (a : A)
  | and
  | or
  | left
  | right
deriving DecidableEq

namespace BoolToken

variable {A : Type}

/-- The three levels of the grammar. -/
inductive Level
  | factor
  | product
  | sum

/-- Reads the longest expression of a level at the beginning: its value and what follows. -/
def read (v : A → Option Bool) : ℕ → Level → List (BoolToken A) →
    Option (Bool × List (BoolToken A))
  | 0, _, _ => none
  | fuel + 1, .factor, tokens =>
    match tokens with
    | .atom a :: rest => (v a).map fun value => (value, rest)
    | .left :: inner =>
      match read v fuel .sum inner with
      | some (value, .right :: rest) => some (value, rest)
      | _ => none
    | _ => none
  | fuel + 1, .product, tokens =>
    match read v fuel .factor tokens with
    | some (value, .and :: rest) =>
      (read v fuel .product rest).map fun (other, rest) => (value && other, rest)
    | result => result
  | fuel + 1, .sum, tokens =>
    match read v fuel .product tokens with
    | some (value, .or :: rest) =>
      (read v fuel .sum rest).map fun (other, rest) => (value || other, rest)
    | result => result

/-- The value of a whole expression. -/
def evaluate (v : A → Option Bool) (tokens : List (BoolToken A)) : Option Bool :=
  match read v (3 * tokens.length + 3) .sum tokens with
  | some (value, []) => some value
  | _ => none

/-- The grammar, with the value of each expression. -/
inductive Denotes (v : A → Option Bool) : Level → List (BoolToken A) → Bool → Prop
  | atom {a : A} {value : Bool} (h : v a = some value) : Denotes v .factor [.atom a] value
  | group {tokens : List (BoolToken A)} {value : Bool} (h : Denotes v .sum tokens value) :
      Denotes v .factor (.left :: (tokens ++ [.right])) value
  | factor {tokens : List (BoolToken A)} {value : Bool} (h : Denotes v .factor tokens value) :
      Denotes v .product tokens value
  | and {first rest : List (BoolToken A)} {value other : Bool}
      (hfirst : Denotes v .factor first value) (hrest : Denotes v .product rest other) :
      Denotes v .product (first ++ .and :: rest) (value && other)
  | product {tokens : List (BoolToken A)} {value : Bool} (h : Denotes v .product tokens value) :
      Denotes v .sum tokens value
  | or {first rest : List (BoolToken A)} {value other : Bool}
      (hfirst : Denotes v .product first value) (hrest : Denotes v .sum rest other) :
      Denotes v .sum (first ++ .or :: rest) (value || other)

variable {v w : A → Option Bool} {level : Level} {tokens : List (BoolToken A)} {value : Bool}

/-- What may follow an expression of a level. -/
def Level.mayFollow : Level → List (BoolToken A) → Prop
  | .factor, _ => True
  | .product, rest => rest.head? ≠ some .and
  | .sum, rest => rest.head? ≠ some .and ∧ rest.head? ≠ some .or

def Level.steps : Level → ℕ
  | .factor => 0
  | .product => 1
  | .sum => 2

/-- A reader that finds neither connective stops. -/
theorem read_of_denotes (h : Denotes v level tokens value) {rest : List (BoolToken A)}
    (hrest : level.mayFollow rest) {fuel : ℕ} (hfuel : 3 * tokens.length + level.steps ≤ fuel) :
    read v fuel level (tokens ++ rest) = some (value, rest) := by
  induction h generalizing rest fuel with
  | atom h =>
    obtain ⟨fuel, rfl⟩ : ∃ n, fuel = n + 1 := ⟨fuel - 1, by
      simp only [length_singleton] at hfuel
      omega⟩
    simp [read, h]
  | @group tokens value h ih =>
    simp only [length_cons, length_append, length_nil, Level.steps] at hfuel ih
    obtain ⟨fuel, rfl⟩ : ∃ n, fuel = n + 1 := ⟨fuel - 1, by omega⟩
    have hinner := @ih (.right :: rest) ⟨by simp, by simp⟩ fuel (by omega)
    simp [read, hinner]
  | @factor tokens value h ih =>
    simp only [Level.steps] at hfuel ih
    obtain ⟨fuel, rfl⟩ : ∃ n, fuel = n + 1 := ⟨fuel - 1, by omega⟩
    have hinner := @ih rest trivial fuel (by omega)
    simp only [read, hinner]
    split
    next heq =>
      cases heq
      exact absurd rfl hrest
    next => rfl
  | @and first others value other hfirst hothers ihfirst ihothers =>
    simp only [length_cons, length_append, Level.steps] at hfuel ihfirst ihothers
    obtain ⟨fuel, rfl⟩ : ∃ n, fuel = n + 1 := ⟨fuel - 1, by omega⟩
    have hone := @ihfirst (.and :: (others ++ rest)) trivial fuel (by omega)
    have hmore := @ihothers rest hrest fuel (by omega)
    simp [read, hone, hmore]
  | @product tokens value h ih =>
    simp only [Level.steps] at hfuel ih
    obtain ⟨fuel, rfl⟩ : ∃ n, fuel = n + 1 := ⟨fuel - 1, by omega⟩
    have hinner := @ih rest hrest.1 fuel (by omega)
    simp only [read, hinner]
    split
    next heq =>
      cases heq
      exact absurd rfl hrest.2
    next => rfl
  | @or first others value other hfirst hothers ihfirst ihothers =>
    simp only [length_cons, length_append, Level.steps] at hfuel ihfirst ihothers
    obtain ⟨fuel, rfl⟩ : ∃ n, fuel = n + 1 := ⟨fuel - 1, by omega⟩
    have hone := @ihfirst (.or :: (others ++ rest)) (by simp [Level.mayFollow]) fuel (by omega)
    have hmore := @ihothers rest hrest fuel (by omega)
    simp [read, hone, hmore]

/-- **The value of an expression.** -/
theorem evaluate_of_denotes (h : Denotes v .sum tokens value) : evaluate v tokens = some value := by
  have hread : read v (3 * tokens.length + 3) .sum (tokens ++ []) = some (value, []) :=
    read_of_denotes h ⟨by simp, by simp⟩
      (Nat.add_le_add_left (by decide : Level.sum.steps ≤ 3) (3 * tokens.length))
  rw [append_nil] at hread
  rw [evaluate, hread]

/-! ## Joined expressions -/

theorem Denotes.append_and {first rest : List (BoolToken A)} {other : Bool}
    (hfirst : Denotes v .product first value) (hrest : Denotes v .product rest other) :
    Denotes v .product (first ++ .and :: rest) (value && other) := by
  generalize hlevel : Level.product = level at hfirst
  induction hfirst with
  | factor h => exact .and h hrest
  | and h _ _ ih =>
    rw [append_assoc, cons_append, Bool.and_assoc]
    exact .and h (ih rfl)
  | _ => cases hlevel

variable {parts : List (List (BoolToken A))}

/-- Products joined by `AND`, or by `OR`. -/
theorem Denotes.intercalate {values : List Bool} (hne : parts ≠ [])
    (h : List.Forall₂ (Denotes v .product) parts values) :
    Denotes v .product (List.intercalate [.and] parts) (values.all id) ∧
      Denotes v .sum (List.intercalate [.or] parts) (values.any id) := by
  induction h with
  | nil => exact absurd rfl hne
  | @cons part value rest others hpart hrest ih =>
    cases hrest with
    | nil => exact ⟨by simpa [List.intercalate] using hpart,
        by simpa [List.intercalate] using .product hpart⟩
    | cons hsecond hothers =>
      obtain ⟨hand, hor⟩ := ih (cons_ne_nil _ _)
      have hand' := hpart.append_and hand
      have hor' := Denotes.or hpart hor
      simpa [List.intercalate, List.intersperse] using And.intro hand' hor'

end BoolToken

end Dbflux.Lib

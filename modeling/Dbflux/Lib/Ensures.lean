import Mathlib

/-!
# Postconditions of fallible stateful computations

`EStateM ε σ` keeps the state a computation had reached when it fails, which
is what a method of a mutable object does when it returns early with an
error. `Ensures m s Q E` says what `m` leaves when it starts from `s`: `Q` for
the value and the state when it returns, `E` for the state when it fails.

Results: one rule for each way a computation is put together, and
`Ensures.ok` and `Ensures.error` to read a postcondition off a given run.
-/

namespace Dbflux.Lib

variable {ε σ τ α β : Type}

/-- The outcome of `m` from `s` meets `Q`, or `E` when it is a failure. -/
def Ensures (m : EStateM ε σ α) (s : σ) (Q : α → σ → Prop) (E : σ → Prop) : Prop :=
  match m s with
  | .ok a s' => Q a s'
  | .error _ s' => E s'

/-- `Ensures` where nothing is said about failures. -/
abbrev Leaves (m : EStateM ε σ α) (s : σ) (Q : α → σ → Prop) : Prop := Ensures m s Q fun _ => True

/-- Run `m` on a part of the state. -/
def zoom (view : σ → τ) (put : σ → τ → σ) (m : EStateM ε τ α) : EStateM ε σ α := fun s =>
  match m (view s) with
  | .ok a t => .ok a (put s t)
  | .error e t => .error e (put s t)

/-- The value and the state a computation ends with, if it does not fail. -/
def outcome (m : EStateM ε σ α) (s : σ) : Option (α × σ) :=
  match m s with
  | .ok a t => some (a, t)
  | .error _ _ => none

theorem outcome_eq_some {m : EStateM ε σ α} {s t : σ} {a : α} :
    outcome m s = some (a, t) ↔ m s = .ok a t := by
  unfold outcome
  cases m s with
  | ok | error => simp

theorem toOption_eq_some {result : Except ε α} {a : α} :
    result.toOption = some a ↔ result = .ok a := by
  cases result <;> simp [Except.toOption]

theorem bind_eq_ok {m : Except ε α} {f : α → Except ε β} {b : β} :
    m >>= f = .ok b ↔ ∃ a, m = .ok a ∧ f a = .ok b := by
  cases m <;> simp [bind, Except.bind]

theorem ite_bind_eq_ok {c : Prop} [Decidable c] {m n : Except ε α} {f : α → Except ε β} {b : β} :
    (if c then m >>= f else n >>= f) = .ok b ↔ ∃ a, (if c then m else n) = .ok a ∧ f a = .ok b := by
  split_ifs <;> exact bind_eq_ok

theorem map_eq_ok {m : Except ε α} {f : α → β} {b : β} :
    m.map f = .ok b ↔ ∃ a, m = .ok a ∧ f a = b := by
  cases m <;> simp [Except.map]

/-- Every value a fallible computation returns meets `Q`. -/
def Yields (m : Except ε α) (Q : α → Prop) : Prop := ∀ a, m = .ok a → Q a

namespace Yields

variable {m n : Except ε α} {f : α → Except ε β} {Q : α → Prop} {R : β → Prop}

protected theorem ok {a : α} (h : Q a) : Yields (.ok a : Except ε α) Q := by
  rintro _ ⟨⟩
  exact h

protected theorem error {e : ε} : Yields (.error e : Except ε α) Q := by
  rintro _ ⟨⟩

protected theorem bind (h : ∀ a, Yields (f a) R) : Yields (m >>= f) R := by
  intro b hrun
  obtain ⟨a, -, hrun⟩ := bind_eq_ok.mp hrun
  exact h a b hrun

protected theorem ite {c : Prop} [Decidable c] (ht : c → Yields m Q) (hf : ¬ c → Yields n Q) :
    Yields (if c then m else n) Q := by
  split
  next hc => exact ht hc
  next hc => exact hf hc

end Yields

namespace Ensures

variable {m : EStateM ε σ α} {f : α → EStateM ε σ β} {s s' : σ} {a : α} {e : ε}
  {Q Q' : α → σ → Prop} {R : β → σ → Prop} {E E' : σ → Prop}

theorem ok (h : Ensures m s Q E) (hrun : m s = .ok a s') : Q a s' := by
  unfold Ensures at h
  rwa [hrun] at h

theorem error (h : Ensures m s Q E) (hrun : m s = .error e s') : E s' := by
  unfold Ensures at h
  rwa [hrun] at h

theorem mono (h : Ensures m s Q E) (hQ : ∀ a t, Q a t → Q' a t) (hE : ∀ t, E t → E' t) :
    Ensures m s Q' E' := by
  unfold Ensures at h ⊢
  split <;> simp_all

protected theorem pure (h : Q a s) : Ensures (pure a : EStateM ε σ α) s Q E := h

protected theorem throw (h : E s) : Ensures (throw e : EStateM ε σ α) s Q E := h

protected theorem bind (h : Ensures m s (fun a t => Ensures (f a) t R E) E) :
    Ensures (m >>= f) s R E := by
  unfold Ensures at h ⊢
  simp only [bind, EStateM.bind]
  cases hm : m s with
  | ok | error =>
    rw [hm] at h
    exact h

/-- The next computation starts from the postcondition. -/
theorem andThen (h : Ensures m s Q E) (hnext : ∀ a t, Q a t → Ensures (f a) t R E) :
    Ensures (m >>= f) s R E := .bind (h.mono hnext fun _ ht => ht)

/-- Nothing is said about failures: the postcondition can be weakened, -/
theorem imp (h : Ensures m s Q E) (hQ : ∀ a t, Q a t → Q' a t) : Leaves m s Q' :=
  h.mono hQ fun _ _ => trivial

/-- and the next computation starts from it. -/
theorem next (h : Ensures m s Q E)
    (hnext : ∀ a t, Q a t → Leaves (f a) t R) : Leaves (m >>= f) s R :=
  .bind (h.imp hnext)

theorem next_ite {c : Prop} [Decidable c] {n : EStateM ε σ α}
    (h : Ensures (if c then m else n) s Q E) (hnext : ∀ a t, Q a t → Leaves (f a) t R) :
    Leaves (if c then m >>= f else n >>= f) s R := by
  split_ifs at h ⊢ <;> exact h.next hnext

theorem stop : Ensures (MonadExcept.throw e >>= f : EStateM ε σ β) s R fun _ => True :=
  .bind (.throw trivial)

protected theorem get {Q : σ → σ → Prop} (h : Q s s) : Ensures (get : EStateM ε σ σ) s Q E := h

protected theorem modify {g : σ → σ} {Q : PUnit → σ → Prop} (h : Q ⟨⟩ (g s)) :
    Ensures (modify g : EStateM ε σ PUnit) s Q E := h

theorem zoom {view : σ → τ} {put : σ → τ → σ} {n : EStateM ε τ α}
    (h : Ensures n (view s) (fun a t => Q a (put s t)) (fun t => E (put s t))) :
    Ensures (Lib.zoom view put n) s Q E := by
  unfold Ensures at h ⊢
  unfold Lib.zoom
  cases hn : n (view s) with
  | ok | error =>
    rw [hn] at h
    exact h

end Ensures

end Dbflux.Lib

import Dbflux.Lib.Transition
import Dbflux.Session.Binding

/-!
# Which sessions the binding closes

A session is *kept* when it was installed under the generation that is still
current, every `execute` of that generation named its connection and database,
and it does not report itself closed. Such a session should survive every
call. It does not survive a call that loaded an older generation before it got
the slot: that call finds a session it does not match and closes it.

Results:
* `kept_closed_iff`: the exact steps, in every interleaving, that close a kept
  session.
* `stale_call_closes_kept`: an interleaving of two calls that closes one.
* `runs_in_own_session`: a statement in a session runs alone, in one of its
  generation.
-/

namespace Dbflux.Session

open Lib List
open Function (update_of_ne update_self)

variable {V : Type}

/-- One step of the binding and what it did. -/
abbrev Event (V : Type) := Input V × List (Effect V)

/-- Everything a history did, in order. -/
def effects (history : List (Event V)) : List (Effect V) := history.flatMap (·.2)

/-- The session of `bound` was installed under the current generation for the
connection and database of every call of that generation, and does not
report itself closed. -/
structure Kept (history : List (Event V)) (w : World V) (bound : Ready) : Prop where
  installed : .installed bound ∈ effects history
  current : bound.generation = w.generation
  agrees : ∀ context, .called context ∈ effects history → context.generation = bound.generation →
    context.root = bound.root ∧ context.database = bound.database
  open_ : bound.session ∉ w.ended

/-- An `execute` gets the slot and takes `taken` out of it: the lock is free and not
poisoned, the connection has a session factory, the statement is supported, and the
session does not match the call. -/
structure TakesOut (w : World V) (thread : ℕ) (answer : Answer V) (context : Context)
    (taken : Ready) : Prop where
  waits : w.calls thread = .executeLock context
  free : w.holder = none
  sound : w.poisoned = false
  factory : answer.hasFactory = true
  supported : Sql.classifySqlTransactionControl context.sql ≠ .unsupported
  slot : w.slot = .ready taken
  mismatch : w.matchesContext context = false

/-- The step is the next one of a call that overtook: it got the slot with `bound` in
it although it had loaded an older generation than the one `bound` was installed
under, and has made no step since. -/
def Overtakes (history : List (Event V)) (input : Input V) (bound : Ready) : Prop :=
  ∃ thread answer context before lock w after, input = .resume thread answer ∧
    history = before ++ (.resume thread lock, []) :: after ∧
    Run (ExecStep World.exec) World.new before w ∧ TakesOut w thread lock context bound ∧
    context.generation < bound.generation ∧
    ∀ event ∈ after, ∀ answer, event.1 ≠ .resume thread answer

/-! ## What a call in progress knows -/

namespace Call

/-- The call holds the slot. -/
def holds : Call V → Bool
  | .idle | .executeLock _ | .closeLock _ => false
  | _ => true

/-- What is known of the sessions and generations a call carries, given what
happened so far. -/
def Knows (past : List (Effect V)) (w : World V) : Call V → Prop
  | .idle => True
  | .executeLock context | .executeRoot context | .open context => .called context ∈ past
  | .closeOld context taken =>
    .called context ∈ past ∧ .installed taken ∈ past ∧
      ¬ (taken.generation = context.generation ∧ taken.database = context.database ∧
        taken.root = context.root ∧ taken.session ∉ w.ended)
  | .checkOpened context session =>
    .called context ∈ past ∧ session ∈ w.opened ∧
      ∀ bound, .installed bound ∈ past → bound.session ≠ session
  | .closeOpened _ session => ∀ bound, .installed bound ∈ past → bound.session ≠ session
  | .run context | .checkRun context _ =>
    ∃ bound, w.slot = .ready bound ∧ bound.generation = context.generation
  | .closeStale _ stale _ =>
    .installed stale ∈ past ∧ (stale.generation < w.generation ∨ stale.session ∈ w.ended)
  | .closeLock generation => generation ≤ w.generation
  | .closeInvalidated stale => .installed stale ∈ past ∧ stale.generation < w.generation

end Call

/-- The invariant of every interleaving in which the counter has not wrapped. -/
structure Consistent (count : ℕ) (past : List (Effect V)) (w : World V) : Prop where
  count_eq : w.generation = count
  invalidated : ∀ generation ∈ w.invalidated, generation ≤ w.generation
  called : ∀ context, .called context ∈ past → context.generation ≤ w.generation
  installed : ∀ bound, .installed bound ∈ past →
    bound.generation ≤ w.generation ∧ bound.session ∈ w.opened
  unique : ∀ bound other, .installed bound ∈ past → .installed other ∈ past →
    bound.session = other.session → bound = other
  slot : ∀ bound, w.slot = .ready bound → .installed bound ∈ past
  holder : ∀ thread, (w.calls thread).holds → w.holder = some thread
  knows : ∀ thread, (w.calls thread).Knows past w

theorem consistent_new : Consistent 0 ([] : List (Effect V)) World.new where
  count_eq := rfl
  invalidated := by simp [World.new]
  called := by simp
  installed := by simp
  unique := by simp
  slot := by simp [World.new]
  holder := by simp [World.new, Call.holds]
  knows := fun _ => trivial

section Steps

variable {count : ℕ} {past out : List (Effect V)} {w w' : World V}

variable {call : Call V} {thread session : ℕ} {answer : Answer V}

/-- What a waiting call knows stays true. -/
theorem Call.Knows.mono_of_waiting (h : call.Knows past w) (hwaits : call.holds = false)
    (hgeneration : w.generation ≤ w'.generation) :
    call.Knows (past ++ out) w' := by
  cases call with
  | idle => trivial
  | executeLock context => exact mem_append_left _ h
  | closeLock generation => exact le_trans h hgeneration
  | _ => cases hwaits

/-- What any call knows stays true while the slot is left alone and nothing is
installed. -/
theorem Call.Knows.mono_of_quiet (h : call.Knows past w) (hslot : w'.slot = w.slot)
    (hopened : w'.opened = w.opened) (hended : ∀ session ∈ w.ended, session ∈ w'.ended)
    (hgeneration : w.generation ≤ w'.generation) (hquiet : ∀ bound, .installed bound ∉ out) :
    call.Knows (past ++ out) w' := by
  have hpast : ∀ bound, .installed bound ∈ past ++ out → .installed bound ∈ past := by
    intro bound hbound
    exact (mem_append.mp hbound).resolve_right (hquiet bound)
  cases call with
  | idle => trivial
  | executeLock context | executeRoot context | «open» context => exact mem_append_left _ h
  | closeOld context taken =>
    obtain ⟨hcalled, hinstalled, hmismatch⟩ := h
    refine ⟨mem_append_left _ hcalled, mem_append_left _ hinstalled, ?_⟩
    rintro ⟨hg, hd, hr, hopen⟩
    exact hmismatch ⟨hg, hd, hr, fun hin => hopen (hended _ hin)⟩
  | checkOpened context session =>
    obtain ⟨hcalled, hsession, hnew⟩ := h
    exact ⟨mem_append_left _ hcalled, hopened ▸ hsession, fun b hb => hnew b (hpast b hb)⟩
  | closeOpened context session => exact fun b hb => h b (hpast b hb)
  | run context | checkRun context result =>
    show ∃ bound, w'.slot = .ready bound ∧ _
    rw [hslot]
    exact h
  | closeStale context stale result =>
    exact ⟨mem_append_left _ h.1, h.2.imp (fun hlt => by omega) (hended _)⟩
  | closeLock generation => exact le_trans h hgeneration
  | closeInvalidated stale => exact ⟨mem_append_left _ h.1, lt_of_lt_of_le h.2 hgeneration⟩

/-- No other thread holds the slot. -/
def World.Alone (w : World V) (thread : ℕ) : Prop :=
  ∀ other, other ≠ thread → (w.calls other).holds = false

variable (h : Consistent count past w)
include h

theorem Consistent.alone (hfree : (w.calls thread).holds ∨ w.holder = none) : w.Alone thread := by
  intro other hother
  by_contra hholds
  have hholder := h.holder other (by simpa using hholds)
  rcases hfree with hthread | hnone
  · rw [h.holder thread hthread] at hholder
    exact hother (Option.some.inj hholder).symm
  · rw [hnone] at hholder
    cases hholder

theorem Consistent.knowsAt (hcall : w.calls thread = call) :
    call.Knows past w := hcall ▸ h.knows thread

theorem Consistent.poison (poisoned : Bool) :
    Consistent count past { w with poisoned := poisoned } :=
  ⟨h.count_eq, h.invalidated, h.called, h.installed, h.unique, h.slot, h.holder, h.knows⟩

variable (halone : w.Alone thread)
include halone

/-- A step of a thread that holds the slot, or takes it, leaves every other
call waiting, so only its own call and what it installs need a look. -/
theorem Consistent.of_resume (hgeneration : w'.generation = w.generation)
    (hinvalidated : w'.invalidated = w.invalidated)
    (hopened : ∀ session ∈ w.opened, session ∈ w'.opened)
    (hcalls : ∀ other, other ≠ thread → w'.calls other = w.calls other)
    (hcalled : ∀ context, .called context ∉ out) (hinstalled : ∀ bound, .installed bound ∈ out →
      out = [.installed bound] ∧ bound.generation ≤ w.generation ∧ bound.session ∈ w'.opened ∧
        ∀ other, .installed other ∈ past → other.session ≠ bound.session)
    (hslot : ∀ bound, w'.slot = .ready bound → .installed bound ∈ past ++ out)
    (hholder : (w'.calls thread).holds → w'.holder = some thread)
    (hknows : (w'.calls thread).Knows (past ++ out) w') : Consistent count (past ++ out) w' where
  count_eq := by rw [hgeneration]; exact h.count_eq
  invalidated := by rw [hgeneration, hinvalidated]; exact h.invalidated
  called := by
    intro context hcontext
    rw [hgeneration]
    exact h.called context ((mem_append.mp hcontext).resolve_right (hcalled context))
  installed := by
    intro bound hbound
    rw [hgeneration]
    rcases mem_append.mp hbound with hold | hnew
    · exact ⟨(h.installed bound hold).1, hopened _ (h.installed bound hold).2⟩
    · exact ⟨(hinstalled bound hnew).2.1, (hinstalled bound hnew).2.2.1⟩
  unique := by
    intro bound other hbound hother hsame
    rcases mem_append.mp hbound with hold | hnew <;> rcases mem_append.mp hother with hold' | hnew'
    · exact h.unique bound other hold hold' hsame
    · exact absurd hsame ((hinstalled other hnew').2.2.2 bound hold)
    · exact absurd hsame.symm ((hinstalled bound hnew).2.2.2 other hold')
    · rw [(hinstalled bound hnew).1] at hnew'
      exact (Effect.installed.inj (mem_singleton.mp hnew')).symm
  slot := hslot
  holder := by
    intro other hholds
    by_cases hother : other = thread
    · rw [hother] at hholds ⊢
      exact hholder hholds
    · rw [hcalls other hother, halone other hother] at hholds
      cases hholds
  knows := by
    intro other
    by_cases hother : other = thread
    · rw [hother]
      exact hknows
    · rw [hcalls other hother]
      exact (h.knows other).mono_of_waiting (halone other hother) hgeneration.ge

/-- An effect that neither calls nor installs. -/
@[simp] def Effect.silent : Effect V → Bool
  | .called _ | .installed _ => false
  | .closed _ | .returned _ => true

variable (hout : ∀ effect ∈ out, effect.silent)
include hout

omit h halone in
theorem not_called_of_silent (context : Context) :
    .called context ∉ out := fun h => absurd (hout _ h) (by simp)

omit h halone in
theorem not_installed_of_silent (bound : Ready) :
    .installed bound ∉ out := fun h => absurd (hout _ h) (by simp)

/-- The thread returns, leaving `slot` behind. -/
theorem Consistent.finish {slot : SessionSlot}
    (hslot : ∀ bound, slot = .ready bound → .installed bound ∈ past) :
    Consistent count (past ++ out) ({ w with slot := slot }.finish thread) := by
  refine h.of_resume halone rfl rfl (fun _ hs => hs)
    (fun other hother => update_of_ne hother _ _) (not_called_of_silent hout)
    (fun bound hb => absurd hb (not_installed_of_silent hout bound))
    (fun bound hb => mem_append_left _ (hslot bound hb)) ?_ ?_
  · intro hholds
    simp [World.finish, Call.holds] at hholds
  · simp [World.finish, Call.Knows]

/-- The thread returns and leaves the slot as it found it. -/
theorem Consistent.leave : Consistent count (past ++ out) (w.finish thread) :=
  h.finish halone hout h.slot

theorem Consistent.panicked : Consistent count (past ++ out) (w.panicked thread) :=
  (h.leave halone hout).poison true

/-- The thread goes on to `call`, leaving `slot` behind. -/
theorem Consistent.goOn {slot : SessionSlot}
    (hslot : ∀ bound, slot = .ready bound → .installed bound ∈ past)
    (hknows : call.Knows (past ++ out) { w with slot := slot }) :
    Consistent count (past ++ out) ({ w with slot := slot }.goOn thread call) := by
  refine h.of_resume halone rfl rfl (fun _ hs => hs)
    (fun other hother => update_of_ne hother _ _) (not_called_of_silent hout)
    (fun bound hb => absurd hb (not_installed_of_silent hout bound))
    (fun bound hb => mem_append_left _ (hslot bound hb)) (fun _ => rfl) ?_
  rw [show (World.goOn _ thread call).calls thread = call from update_self _ _ _]
  cases call <;> exact hknows

omit halone

/-- A thread that never got the slot returns. -/
theorem Consistent.giveUp (thread : ℕ) (hfree : w.holder = none) :
    Consistent count (past ++ out) { w with calls := Function.update w.calls thread .idle } := by
  have hleft : Consistent count (past ++ out) (w.finish thread) := h.leave (h.alone (.inr hfree)) hout
  rwa [World.finish, ← hfree] at hleft

omit hout

variable {result : World V × List (Effect V)}

/-- A panic, or the result the driver's answer leads to, after the effects
`before`. -/
theorem Consistent.orPanic (before : List (Effect V)) (hbefore : ∀ effect ∈ before, effect.silent)
    (halone : w.Alone thread)
    (hresult : Consistent count (past ++ (before ++ result.2)) result.1) :
    Consistent count (past ++ (before ++ (World.orPanic answer w thread result).2))
      (World.orPanic answer w thread result).1 := by
  unfold World.orPanic
  split
  · rw [append_nil]
    exact h.panicked halone hbefore
  · exact hresult

variable {context : Context}

theorem consistent_executeLocked {hasFactory : Bool} (hcall : w.calls thread = .executeLock context)
    (hfree : w.holder = none) :
    Consistent count (past ++ (w.executeLocked thread context hasFactory).2)
      (w.executeLocked thread context hasFactory).1 := by
  have halone : w.Alone thread := h.alone (Or.inr hfree)
  have hcalled : .called context ∈ past := h.knowsAt hcall
  unfold World.executeLocked
  split_ifs with hpoisoned hfactory hunsupported hended hmatches
  · exact h.giveUp (by simp) thread hfree
  · exact h.goOn halone (by simp) h.slot (mem_append_left _ hcalled)
  · exact h.leave halone (by simp)
  · exact h.leave halone (by simp)
  · refine h.goOn halone (by simp) h.slot ?_
    unfold World.matchesContext at hmatches
    split at hmatches
    next bound hslot =>
      simp only [Bool.and_eq_true, decide_eq_true_eq] at hmatches
      exact ⟨bound, hslot, hmatches.1.1.1⟩
    next => cases hmatches
  · split
    next taken hslot =>
      refine h.goOn halone (by simp) (by simp) ⟨mem_append_left _ hcalled,
        mem_append_left _ (h.slot taken hslot), ?_⟩
      rintro ⟨hg, hd, hr, hopen⟩
      exact hmatches (by simpa [World.matchesContext, hslot, hg, hd, hr] using hopen)
    next => exact h.goOn halone (by simp) (by simp) (mem_append_left _ hcalled)

theorem consistent_closeLocked {generation : ℕ}
    (hcall : w.calls thread = .closeLock generation) (hfree : w.holder = none) :
    Consistent count (past ++ (w.closeLocked thread generation).2)
      (w.closeLocked thread generation).1 := by
  have halone : w.Alone thread := h.alone (.inr hfree)
  have hgeneration : generation ≤ w.generation := h.knowsAt hcall
  unfold World.closeLocked
  split_ifs with hpoisoned
  · exact h.giveUp (by simp) thread hfree
  · split
    next bound hslot =>
      split_ifs with hstale
      · exact h.goOn halone (by simp) (by simp)
          ⟨mem_append_left _ (h.slot bound hslot), lt_of_lt_of_le hstale hgeneration⟩
      · exact h.leave halone (by simp)
    all_goals
      try split_ifs
      all_goals
        first
        | exact h.leave halone (by simp)
        | exact h.finish halone (by simp) (by simp)

variable {after : World V × List (Effect V)}

theorem Consistent.alone_of_holds (hcall : w.calls thread = call) (hholds : call.holds) :
    w.Alone thread := h.alone (.inl (hcall ▸ hholds))

/-- The driver opens a session that was never opened before. -/
theorem consistent_opened (hcall : w.calls thread = .open context) (hused : session ∉ w.opened) :
    Consistent count (past ++ [])
      ({ w with opened := session :: w.opened }.goOn thread (.checkOpened context session)) := by
  have hcalled : .called context ∈ past := h.knowsAt hcall
  refine h.of_resume (h.alone_of_holds hcall rfl) rfl rfl (fun _ hs => mem_cons_of_mem _ hs)
    (fun other hother => update_of_ne hother _ _) (by simp) (by simp)
    (fun bound hb => mem_append_left _ (h.slot bound hb)) (fun _ => rfl) ?_
  rw [show (World.goOn _ thread _).calls thread = _ from update_self _ _ _]
  refine ⟨mem_append_left _ hcalled, mem_cons_self, ?_⟩
  intro bound hbound hsame
  rw [append_nil] at hbound
  exact hused (hsame ▸ (h.installed bound hbound).2)

/-- The opened session goes into the slot. -/
theorem consistent_install (hcall : w.calls thread = .checkOpened context session) :
    Consistent count
      (past ++ [.installed ⟨context.generation, context.root, context.database, session⟩])
      ({ w with slot := .ready ⟨context.generation, context.root, context.database, session⟩ }.goOn
        thread (.run context)) := by
  obtain ⟨hcalled, hsession, hnew⟩ := h.knowsAt hcall
  refine h.of_resume (h.alone_of_holds hcall rfl) rfl rfl (fun _ hs => hs)
    (fun other hother => update_of_ne hother _ _) (by simp) ?_ ?_ (fun _ => rfl) ?_
  · intro bound hbound
    cases mem_singleton.mp hbound
    exact ⟨rfl, h.called context hcalled, hsession, hnew⟩
  · intro bound hbound
    cases hbound
    exact mem_append_right _ mem_cons_self
  · rw [show (World.goOn _ thread _).calls thread = _ from update_self _ _ _]
    exact ⟨_, rfl, rfl⟩

/-- The session is taken out because the generation moved on, or because it ended. -/
theorem consistent_stale {result : Except DbError V} {bound : Ready}
    (hcall : w.calls thread = .checkRun context result) (hslot : w.slot = .ready bound)
    (hstale : context.generation ≠ w.generation ∨ bound.session ∈ w.ended) :
    Consistent count (past ++ []) ({ w with slot := .closed context.generation }.goOn thread
      (.closeStale context bound result)) := by
  obtain ⟨other, hother, hgeneration⟩ := h.knowsAt hcall
  cases hother.symm.trans hslot
  have hle := (h.installed bound (h.slot bound hslot)).1
  refine h.goOn (h.alone_of_holds hcall rfl) (by simp) (by simp)
    ⟨mem_append_left _ (h.slot bound hslot), hstale.imp_left fun hne => ?_⟩
  show bound.generation < w.generation
  omega

theorem consistent_resume (hstep : w.resume thread answer = some after) :
    Consistent count (past ++ after.2) after.1 := by
  have holding (call : Call V) (hcall : w.calls thread = call) (hholds : call.holds) :
      w.Alone thread := h.alone_of_holds hcall hholds
  unfold World.resume at hstep
  split at hstep
  next => exact absurd hstep (by simp)
  next context hcall =>
    split_ifs at hstep with hheld
    cases hstep
    exact consistent_executeLocked h hcall (by simpa using hheld)
  next context hcall =>
    have halone := holding _ hcall rfl
    cases hstep
    exact h.orPanic [] (by simp) halone (h.leave halone (by simp))
  next context taken hcall =>
    -- The close itself is the same whatever it answers.
    have halone := holding _ hcall rfl
    have hcalled : .called context ∈ past := (h.knowsAt hcall).1
    cases hstep
    refine h.orPanic [.closed taken.session] (by simp) halone ?_
    split
    · exact h.goOn halone (by simp) h.slot (mem_append_left _ hcalled)
    · exact h.leave halone (by simp)
  next context hcall =>
    have halone := holding _ hcall rfl
    split at hstep
    next session _ =>
      split_ifs at hstep with hused
      cases hstep
      exact h.orPanic [] (by simp) halone (consistent_opened h hcall hused)
    next error _ =>
      cases hstep
      exact h.orPanic [] (by simp) halone (h.finish halone (by simp) (by simp))
  next context session hcall =>
    obtain ⟨-, -, hnew⟩ := h.knowsAt hcall
    split_ifs at hstep with hmoved
    · cases hstep
      exact h.goOn (holding _ hcall rfl) (by simp) h.slot (by simpa [Call.Knows] using hnew)
    · cases hstep
      exact consistent_install h hcall
  next context session hcall =>
    have halone := holding _ hcall rfl
    cases hstep
    exact h.orPanic [.closed session] (by simp) halone (h.finish halone (by simp) (by simp))
  next context hcall =>
    have halone := holding _ hcall rfl
    obtain ⟨bound, hslot, hgeneration⟩ := h.knowsAt hcall
    split at hstep
    · cases hstep
      exact h.orPanic [] (by simp) halone
        (h.goOn halone (by simp) h.slot ⟨bound, hslot, hgeneration⟩)
    · cases hstep
      exact h.leave halone (by simp)
  next context result hcall =>
    have halone := holding _ hcall rfl
    split at hstep
    next bound hslot =>
      split_ifs at hstep with hstale
      · cases hstep
        exact consistent_stale h hcall hslot hstale
      · cases hstep
        exact h.leave halone (by simp)
    next =>
      cases hstep
      exact h.leave halone (by simp)
  next context stale result hcall =>
    have halone := holding _ hcall rfl
    cases hstep
    exact h.orPanic [.closed stale.session] (by simp) halone (h.leave halone (by simp))
  next generation hcall =>
    split_ifs at hstep with hheld
    cases hstep
    exact consistent_closeLocked h hcall (by simpa using hheld)
  next stale hcall =>
    have halone := holding _ hcall rfl
    cases hstep
    exact h.orPanic [.closed stale.session] (by simp) halone (h.leave halone (by simp))

/-- `invalidate` while the counter does not wrap. -/
theorem consistent_invalidate (hcount : count + 1 < 2 ^ 64) (hout : ∀ effect ∈ out, effect.silent) :
    Consistent (count + 1) (past ++ out) { w with
      generation := (w.generation + 1) % 2 ^ 64
      invalidated := (w.generation + 1) % 2 ^ 64 :: w.invalidated } := by
  have hpast : ∀ context, .called context ∈ past ++ out → .called context ∈ past := by
    intro context hcontext
    exact (mem_append.mp hcontext).resolve_right (not_called_of_silent hout context)
  have hpast' : ∀ bound, .installed bound ∈ past ++ out → .installed bound ∈ past := by
    intro bound hbound
    exact (mem_append.mp hbound).resolve_right (not_installed_of_silent hout bound)
  rw [← h.count_eq] at hcount
  rw [Nat.mod_eq_of_lt hcount]
  constructor
  · exact congrArg (· + 1) h.count_eq
  · intro generation hgeneration
    rcases mem_cons.mp hgeneration with rfl | hold
    · exact le_refl _
    · exact Nat.le_succ_of_le (h.invalidated generation hold)
  · exact fun context hcontext => Nat.le_succ_of_le (h.called context (hpast context hcontext))
  · intro bound hbound
    exact ⟨Nat.le_succ_of_le (h.installed bound (hpast' bound hbound)).1,
      (h.installed bound (hpast' bound hbound)).2⟩
  · exact fun bound other hb ho => h.unique bound other (hpast' bound hb) (hpast' other ho)
  · exact fun bound hb => mem_append_left _ (h.slot bound hb)
  · exact h.holder
  · exact fun thread => (h.knows thread).mono_of_quiet rfl rfl (fun _ hs => hs)
      (Nat.le_succ _) (not_installed_of_silent hout)

/-- An idle thread starts to wait for the slot. -/
theorem consistent_wait (hidle : w.calls thread = .idle) (hwaits : call.holds = false)
    (hcalled : ∀ context, .called context ∈ out → context.generation ≤ w.generation)
    (hquiet : ∀ bound, .installed bound ∉ out) (hknows : call.Knows (past ++ out) w) :
    Consistent count (past ++ out) { w with calls := Function.update w.calls thread call } := by
  have hpast : ∀ bound, .installed bound ∈ past ++ out → .installed bound ∈ past := by
    intro bound hbound
    exact (mem_append.mp hbound).resolve_right (hquiet bound)
  constructor
  · exact h.count_eq
  · exact h.invalidated
  · intro context hcontext
    exact (mem_append.mp hcontext).elim (h.called context) (hcalled context)
  · exact fun bound hb => h.installed bound (hpast bound hb)
  · exact fun bound other hb ho => h.unique bound other (hpast bound hb) (hpast other ho)
  · exact fun bound hb => mem_append_left _ (h.slot bound hb)
  · intro other hholds
    by_cases hother : other = thread
    · subst hother
      simp [hwaits] at hholds
    · exact h.holder other (by simpa [update_of_ne hother] using hholds)
  · intro other
    by_cases hother : other = thread
    · subst hother
      simp only [update_self]
      cases call <;> exact hknows
    · simp only [update_of_ne hother]
      exact (h.knows other).mono_of_quiet rfl rfl (fun _ hs => hs) (le_refl _) hquiet

/-- Whether a step advances the generation. -/
def Input.invalidations : Input V → ℕ
  | .start _ .invalidate => 1
  | _ => 0

/-- **Every step keeps the invariant**, as long as the counter does not wrap. -/
theorem consistent_exec {input : Input V}
    (hstep : w.exec input = some after) (hcount : count + input.invalidations < 2 ^ 64) :
    Consistent (count + input.invalidations) (past ++ after.2) after.1 := by
  cases input with
  | resume thread answer => exact consistent_resume h hstep
  | ended session =>
    cases hstep
    rw [append_nil]
    refine ⟨h.count_eq, h.invalidated, h.called, h.installed, h.unique, h.slot, h.holder, ?_⟩
    intro thread
    have hknows : (w.calls thread).Knows (past ++ []) { w with ended := session :: w.ended } :=
      (h.knows thread).mono_of_quiet rfl rfl (fun _ hs => mem_cons_of_mem _ hs) (le_refl _)
        (by simp)
    rwa [append_nil] at hknows
  | start thread call =>
    simp only [World.exec] at hstep
    split at hstep
    next hidle =>
      cases call with
      | execute root database sql =>
        cases hstep
        refine consistent_wait h hidle rfl ?_ (by simp) (by simp [Call.Knows])
        intro context hcontext
        cases mem_singleton.mp hcontext
        exact le_refl _
      | invalidate =>
        cases hstep
        exact consistent_invalidate h hcount (by simp)
      | closeInvalidated generation =>
        simp only [World.start] at hstep
        split_ifs at hstep with hknown
        cases hstep
        exact consistent_wait h hidle rfl (by simp) (by simp) (h.invalidated generation hknown)
    next => cases hstep

omit h

/-! ## Runs -/

/-- How often a history advanced the generation. -/
def invalidations (history : List (Event V)) : ℕ := (history.map fun e => e.1.invalidations).sum

/-- Every interleaving of calls keeps the invariant, as long as the counter
did not wrap. -/
theorem consistent_of_run {history : List (Event V)}
    (hrun : Run (ExecStep World.exec) World.new history w)
    (hcount : invalidations history < 2 ^ 64) :
    Consistent (invalidations history) (effects history) w := by
  refine hrun.traceInvariant (I := fun history w => invalidations history < 2 ^ 64 →
      Consistent (invalidations history) (effects history) w)
    ?_ (fun _ => consistent_new) hcount
  intro history w event w' hold hstep hcount'
  have happend : invalidations (history ++ [event]) =
      invalidations history + event.1.invalidations := by simp [invalidations]
  have heffects : effects (history ++ [event]) = effects history ++ event.2 := by simp [effects]
  rw [happend] at hcount' ⊢
  rw [heffects]
  exact consistent_exec (hold (by omega)) hstep hcount'

/-! ## The steps that close a session -/

/-- The session a call is about to close. -/
def Call.closes : Call V → Option ℕ
  | .closeOld _ taken => some taken.session
  | .closeOpened _ session => some session
  | .closeStale _ stale _ => some stale.session
  | .closeInvalidated stale => some stale.session
  | _ => none

theorem closed_notMem_orPanic (h : .closed session ∉ result.2) :
    .closed session ∉ (World.orPanic answer w thread result).2 := by
  unfold World.orPanic
  split
  · exact not_mem_nil
  · exact h

/-- A step closes a session exactly when its call was about to. -/
theorem closed_mem_resume (hstep : w.resume thread answer = some after) :
    .closed session ∈ after.2 ↔ (w.calls thread).closes = some session := by
  have hquiet : ∀ {effects : List (Effect V)} {call : Call V}, .closed session ∉ effects →
      call.closes = none → (.closed session ∈ effects ↔ call.closes = some session) :=
    fun heffects hcall => by simp [heffects, hcall]
  unfold World.resume at hstep
  cases hcall : w.calls thread <;> simp only [hcall] at hstep
  case idle => cases hstep
  case executeLock | closeLock =>
    split_ifs at hstep
    cases hstep
    refine hquiet ?_ rfl
    first | unfold World.executeLocked | unfold World.closeLocked
    split_ifs
    all_goals try split
    all_goals try split_ifs
    all_goals simp
  case closeOld =>
    cases hstep
    rw [mem_cons, or_iff_left (closed_notMem_orPanic (by split <;> simp))]
    simp [Call.closes, eq_comm]
  case closeOpened | closeStale | closeInvalidated =>
    cases hstep
    rw [mem_cons, or_iff_left (closed_notMem_orPanic (by simp))]
    simp [Call.closes, eq_comm]
  case executeRoot =>
    cases hstep
    exact hquiet (closed_notMem_orPanic (by simp)) rfl
  case «open» | run =>
    split at hstep
    all_goals try split_ifs at hstep
    all_goals
      cases hstep
      first
      | exact hquiet (closed_notMem_orPanic (by simp)) rfl
      | exact hquiet (by simp) rfl
  case checkOpened | checkRun =>
    try split at hstep
    all_goals try split_ifs at hstep
    all_goals
      cases hstep
      exact hquiet (by simp) rfl

theorem closed_mem_exec {input : Input V} (hstep : w.exec input = some after) :
    .closed session ∈ after.2 ↔ ∃ thread answer, input = .resume thread answer ∧
        (w.calls thread).closes = some session := by
  cases input with
  | resume thread answer =>
    rw [closed_mem_resume hstep]
    constructor
    · exact fun h => ⟨thread, answer, rfl, h⟩
    · rintro ⟨thread', answer', hinput, h⟩
      cases hinput
      exact h
  | ended session =>
    cases hstep
    simp
  | start thread call =>
    simp only [World.exec] at hstep
    split at hstep
    · cases call with
      | execute | invalidate =>
        cases hstep
        simp
      | closeInvalidated generation =>
        simp only [World.start] at hstep
        split_ifs at hstep
        cases hstep
        simp
    · cases hstep

/-! ## Where a session was taken out -/

/-- The step changed the call of the thread only, and that call is not about to close
a session of the slot. -/
def TakesNothing (w : World V) (thread : ℕ) (after : World V) : Prop :=
  ∃ call, after.calls = Function.update w.calls thread call ∧
    ∀ context taken, call ≠ .closeOld context taken

theorem TakesNothing.orPanic {result : World V × List (Effect V)}
    (h : TakesNothing w thread result.1) :
    TakesNothing w thread (World.orPanic answer w thread result).1 := by
  unfold World.orPanic
  split
  · exact ⟨_, rfl, nofun⟩
  · exact h

/-- A call is about to close a session of the slot only because it took it out. -/
theorem takesNothing_or_takesOut (hstep : w.resume thread answer = some after) :
    TakesNothing w thread after.1 ∨ ∃ context taken, TakesOut w thread answer context taken ∧
      after = ({ w with slot := .empty }.goOn thread (.closeOld context taken), []) := by
  unfold World.resume at hstep
  cases hcall : w.calls thread <;> simp only [hcall] at hstep
  case idle => cases hstep
  case executeLock context =>
    split_ifs at hstep with hheld
    cases hstep
    unfold World.executeLocked
    split_ifs with hpoisoned hfactory hunsupported hended hmatches
    case neg =>
      split
      next taken hslot =>
        exact .inr ⟨context, taken, ⟨hcall, by simpa using hheld, by simpa using hpoisoned,
          by simpa using hfactory, hunsupported, hslot, by simpa using hmatches⟩, rfl⟩
      next => exact .inl ⟨_, rfl, nofun⟩
    all_goals exact .inl ⟨_, rfl, nofun⟩
  all_goals left
  case closeLock =>
    split_ifs at hstep
    cases hstep
    unfold World.closeLocked
    split_ifs
    all_goals try split
    all_goals try split_ifs
    all_goals exact ⟨_, rfl, nofun⟩
  case executeRoot | closeOpened | closeStale | closeInvalidated =>
    cases hstep
    exact .orPanic ⟨_, rfl, nofun⟩
  case closeOld =>
    cases hstep
    refine .orPanic ?_
    split <;> exact ⟨_, rfl, nofun⟩
  case «open» | run =>
    split at hstep
    all_goals try split_ifs at hstep
    all_goals
      cases hstep
      first
      | exact .orPanic ⟨_, rfl, nofun⟩
      | exact ⟨_, rfl, nofun⟩
  case checkOpened | checkRun =>
    try split at hstep
    all_goals try split_ifs at hstep
    all_goals
      cases hstep
      exact ⟨_, rfl, nofun⟩

/-- The step that takes the session out. -/
theorem TakesOut.exec {taken : Ready} (h : TakesOut w thread answer context taken) :
    w.exec (.resume thread answer) =
      some ({ w with slot := .empty }.goOn thread (.closeOld context taken), []) := by
  simp only [World.exec, World.resume, h.waits, h.free, Option.isSome_none, Bool.false_eq_true,
    if_false, World.executeLocked, h.sound, h.factory, Bool.not_true, h.supported, h.mismatch,
    h.slot, World.remembersEnd]

/-- Between two steps of a call nothing changes it; an idle thread may start one. -/
theorem calls_of_exec {event : Event V} (hstep : ExecStep World.exec w event w')
    (hother : ∀ answer, event.1 ≠ .resume thread answer) :
    w'.calls thread = w.calls thread ∨
      w.calls thread = .idle ∧ (w'.calls thread).holds = false := by
  obtain ⟨input, out⟩ := event
  cases input with
  | resume other answer =>
    have hne : thread ≠ other := fun heq => hother answer (by rw [heq])
    rcases takesNothing_or_takesOut hstep with ⟨call, hcalls, -⟩ | ⟨context, taken, -, hafter⟩
    · exact .inl (by rw [hcalls, update_of_ne hne])
    · cases hafter
      exact .inl (update_of_ne hne _ _)
  | ended session =>
    cases hstep
    exact .inl rfl
  | start other call =>
    simp only [ExecStep, World.exec] at hstep
    split at hstep
    next hidle =>
      by_cases hthread : thread = other
      · subst hthread
        refine .inr ⟨hidle, ?_⟩
        cases call with
        | execute | invalidate =>
          cases hstep
          simp [hidle, Call.holds]
        | closeInvalidated generation =>
          simp only [World.start] at hstep
          split_ifs at hstep
          cases hstep
          simp [Call.holds]
      · refine .inl ?_
        cases call with
        | execute | invalidate =>
          cases hstep
          simp [update_of_ne hthread]
        | closeInvalidated generation =>
          simp only [World.start] at hstep
          split_ifs at hstep
          cases hstep
          simp [update_of_ne hthread]
    next => cases hstep

/-- A call about to close a session of the slot took it out when it got the slot, and
has made no step since. -/
theorem takesOut_of_run {history : List (Event V)} {taken : Ready}
    (hrun : Run (ExecStep World.exec) World.new history w)
    (hcall : w.calls thread = .closeOld context taken) :
    ∃ before lock w₀ after, history = before ++ (.resume thread lock, []) :: after ∧
      Run (ExecStep World.exec) World.new before w₀ ∧ TakesOut w₀ thread lock context taken ∧
      ∀ event ∈ after, ∀ answer, event.1 ≠ .resume thread answer := by
  refine (hrun.traceInvariant (I := fun history w =>
    Run (ExecStep World.exec) World.new history w ∧
      (w.calls thread = .closeOld context taken → ∃ before lock w₀ after,
        history = before ++ (.resume thread lock, []) :: after ∧
        Run (ExecStep World.exec) World.new before w₀ ∧ TakesOut w₀ thread lock context taken ∧
        ∀ event ∈ after, ∀ answer, event.1 ≠ .resume thread answer))
    ?_ ⟨.nil _, by simp [World.new]⟩).2 hcall
  rintro history w ⟨input, out⟩ w' ⟨hrun, hold⟩ hstep
  refine ⟨hrun.snoc hstep, fun hcall => ?_⟩
  by_cases hown : ∃ answer, input = .resume thread answer
  · obtain ⟨answer, rfl⟩ := hown
    rcases takesNothing_or_takesOut hstep with ⟨call, hcalls, hnot⟩ | ⟨_, _, htakes, hafter⟩
    · rw [hcalls, update_self] at hcall
      exact absurd hcall (hnot _ _)
    · cases hafter
      cases (update_self _ _ _).symm.trans hcall
      exact ⟨history, answer, w, [], rfl, hrun, htakes, by simp⟩
  · have hother : ∀ answer, input ≠ .resume thread answer := fun answer h => hown ⟨answer, h⟩
    rcases calls_of_exec hstep hother with hsame | ⟨-, hwaits⟩
    · obtain ⟨before, lock, w₀, after, rfl, hbefore, htakes, hquiet⟩ := hold (hsame ▸ hcall)
      refine ⟨before, lock, w₀, after ++ [(input, out)], by simp, hbefore, htakes, ?_⟩
      exact forall_mem_append.mpr ⟨hquiet, by simpa using hother⟩
    · rw [hcall] at hwaits
      cases hwaits

/-- A call that took a session out closes it in its next step. -/
theorem closeOld_of_takesOut {before after : List (Event V)} {w₀ : World V} {lock : Answer V}
    {taken : Ready}
    (hrun : Run (ExecStep World.exec) World.new (before ++ (.resume thread lock, []) :: after) w)
    (hbefore : Run (ExecStep World.exec) World.new before w₀)
    (htakes : TakesOut w₀ thread lock context taken)
    (hquiet : ∀ event ∈ after, ∀ answer, event.1 ≠ .resume thread answer) :
    w.calls thread = .closeOld context taken := by
  obtain ⟨t, t', ht, hlock, hafter⟩ := hrun.around
  cases ht.unique (fun _ _ _ _ h => h.unique) hbefore
  have htaken : t'.calls thread = .closeOld context taken := by
    cases htakes.exec.symm.trans hlock
    exact update_self _ _ _
  refine hafter.traceInvariant (I := fun events w =>
    (∀ event ∈ events, ∀ answer, event.1 ≠ .resume thread answer) →
      w.calls thread = .closeOld context taken) ?_ (fun _ => htaken) hquiet
  intro events w event w' hold hstep hquiet
  obtain ⟨hquiet, hlast⟩ := forall_mem_append.mp hquiet
  have hcall := hold hquiet
  rcases calls_of_exec hstep (hlast event mem_cons_self) with hsame | ⟨hidle, -⟩
  · exact hsame.trans hcall
  · cases hidle.symm.trans hcall

end Steps

/-- **Which steps close a kept session.** In every interleaving of any number
of calls, as long as the 64-bit generation did not wrap, a step closes a
kept session exactly when its call is an `execute` that had loaded an older
generation when it got the slot with the session in it. In particular a history
without such a call never closes a kept session. -/
theorem kept_closed_iff {history : List (Event V)} {w w' : World V} {input : Input V}
    {out : List (Effect V)} {bound : Ready}
    (hrun : Run (ExecStep World.exec) World.new history w)
    (hcount : invalidations history < 2 ^ 64) (hstep : w.exec input = some (w', out))
    (hkept : Kept history w bound) :
    .closed bound.session ∈ out ↔ Overtakes history input bound := by
  have h := consistent_of_run hrun hcount
  rw [show out = (w', out).2 from rfl, closed_mem_exec hstep]
  constructor
  · rintro ⟨thread, answer, rfl, hcloses⟩
    have hknows := h.knows thread
    cases hcall : w.calls thread with rw [hcall] at hcloses hknows
    | closeOld context taken =>
      obtain ⟨hcalled, hinstalled, hmismatch⟩ := hknows
      obtain rfl := h.unique taken bound hinstalled hkept.installed (Option.some.inj hcloses)
      obtain ⟨before, lock, w₀, after, hhistory, hbefore, htakes, hquiet⟩ :=
        takesOut_of_run hrun hcall
      refine ⟨thread, answer, context, before, lock, w₀, after, rfl, hhistory, hbefore, htakes, ?_,
        hquiet⟩
      have hle := h.called context hcalled
      rw [← hkept.current] at hle
      -- A call of the session's own generation named its connection and database.
      refine lt_of_le_of_ne hle fun hsame => hmismatch ?_
      obtain ⟨hroot, hdatabase⟩ := hkept.agrees context hcalled hsame
      exact ⟨hsame.symm, hdatabase.symm, hroot.symm, hkept.open_⟩
    | closeOpened context session =>
      exact absurd (Option.some.inj hcloses).symm (hknows bound hkept.installed)
    | closeStale context stale result =>
      obtain rfl := h.unique stale bound hknows.1 hkept.installed (Option.some.inj hcloses)
      rcases hknows.2 with hold | hended
      · exact absurd hkept.current (by omega)
      · exact absurd hended hkept.open_
    | closeInvalidated stale =>
      obtain rfl := h.unique stale bound hknows.1 hkept.installed (Option.some.inj hcloses)
      exact absurd hkept.current (ne_of_lt hknows.2)
    | _ => cases hcloses
  · rintro ⟨thread, answer, context, before, lock, w₀, after, rfl, rfl, hbefore, htakes, -, hquiet⟩
    refine ⟨thread, answer, rfl, ?_⟩
    rw [closeOld_of_takesOut hrun hbefore htakes hquiet]
    rfl

/-! ## A stale call -/

/-- The call an effect reports. -/
def Effect.called? : Effect V → Option Context
  | .called context => some context
  | _ => none

/-- The session an effect reports as installed. -/
def Effect.installed? : Effect V → Option Ready
  | .installed bound => some bound
  | _ => none

/-- The session an effect reports as closed. -/
def Effect.closed? : Effect V → Option ℕ
  | .closed session => some session
  | _ => none

variable {past : List (Effect V)}

/-- Reading one kind of effect off a history. -/
theorem mem_filterMap_iff {α : Type} {kind : α → Effect V} {read : Effect V → Option α} {a : α}
    (hread : ∀ effect, read effect = some a ↔ effect = kind a) :
    kind a ∈ past ↔ a ∈ past.filterMap read := by
  simp [mem_filterMap, hread]

/-- A driver that answers every question with success and opens session 7. -/
def willing : Answer ℕ := ⟨true, .ok 7, .ok 0, .ok (), false⟩

/-- Thread 0 loads generation 0. The generation advances, and thread 1 runs a
statement in a new session of generation 1. Thread 0 then gets the slot. -/
def staleCall : List (Input ℕ) :=
  [.start 0 (.execute 0 none "SELECT 1".toList), .start 1 .invalidate,
    .start 1 (.execute 0 none "BEGIN".toList)] ++
  List.replicate 5 (.resume 1 willing) ++ [.resume 0 willing]

/-- What the threads of `staleCall` have done before thread 0's next step. -/
theorem staleCall_run :
    ∃ history w w' out, Run (ExecStep World.exec) (World.new : World ℕ) history w ∧
      invalidations history = 1 ∧ w.exec (.resume 0 willing) = some (w', out) ∧
      Kept history w ⟨1, 0, none, 7⟩ ∧ .closed 7 ∈ out := by
  have heval : ((runInputs World.exec (World.new : World ℕ) staleCall).bind fun r =>
      (r.1.exec (.resume 0 willing)).map fun next =>
        (invalidations r.2, (effects r.2).filterMap Effect.called?,
          (effects r.2).filterMap Effect.installed?, r.1.generation, r.1.ended,
          next.2.filterMap Effect.closed?)) =
      some (1, [⟨0, 0, none, "SELECT 1".toList⟩, ⟨1, 0, none, "BEGIN".toList⟩],
        [⟨1, 0, none, 7⟩], 1, [], [7]) := by rfl
  obtain ⟨⟨w, history⟩, hrun, hnext⟩ := Option.bind_eq_some_iff.mp heval
  obtain ⟨⟨w', out⟩, hexec, heq⟩ := Option.map_eq_some_iff.mp hnext
  simp only [Prod.mk.injEq] at heq
  obtain ⟨hcount, hcalled, hinstalled, hgeneration, hended, hclosed⟩ := heq
  refine ⟨history, w, w', out, run_of_runInputs _ hrun, hcount, hexec, ?_, ?_⟩
  · refine ⟨?_, hgeneration.symm, ?_, by simp [hended]⟩
    · refine (mem_filterMap_iff fun effect => ?_).mpr (hinstalled ▸ mem_cons_self)
      cases effect <;> simp [Effect.installed?]
    · intro context hcontext _
      have hmem := mem_filterMap.mpr ⟨_, hcontext, show Effect.called? _ = _ from rfl⟩
      rw [hcalled] at hmem
      rcases mem_cons.mp hmem with rfl | hlast
      · exact ⟨rfl, rfl⟩
      · cases mem_singleton.mp hlast
        exact ⟨rfl, rfl⟩
  · refine (mem_filterMap_iff fun effect => ?_).mpr (hclosed ▸ mem_cons_self)
    cases effect <;> simp [Effect.closed?]

/-- The exact condition at work in that interleaving. -/
theorem staleCall_overtakes :
    ∃ history w w' out, Run (ExecStep World.exec) (World.new : World ℕ) history w ∧
      w.exec (.resume 0 willing) = some (w', out) ∧ Kept history w ⟨1, 0, none, 7⟩ ∧
      Overtakes history (.resume 0 willing) ⟨1, 0, none, 7⟩ := by
  obtain ⟨history, w, w', out, hrun, hcount, hexec, hkept, hclosed⟩ := staleCall_run
  have hiff := kept_closed_iff hrun (by rw [hcount]; decide) hexec hkept
  exact ⟨history, w, w', out, hrun, hexec, hkept, hiff.mp hclosed⟩

/-- Two calls for the same connection and database, the first of which loads
the generation before `invalidate` and gets the slot after the second: it
closes the session, and with it the transaction, the second has just
opened under the current generation. -/
theorem stale_call_closes_kept :
    ∃ history w input w' out bound, Run (ExecStep World.exec) (World.new : World ℕ) history w ∧
      w.exec input = some (w', out) ∧ Kept history w bound ∧ .closed bound.session ∈ out := by
  obtain ⟨history, w, w', out, hrun, -, hexec, hkept, hclosed⟩ := staleCall_run
  exact ⟨history, w, _, w', out, _, hrun, hexec, hkept, hclosed⟩

/-! ## Where a statement runs -/

/-- **A statement that runs in a session runs alone, in one of its own generation.** Over
every interleaving, a call at the driver's `execute` of the slot's session is the only one
at the slot; the session there was opened for the generation the call loaded and was
installed for nothing else. A connection without a session factory runs its statements
itself (`executeRoot`). -/
theorem runs_in_own_session {history : List (Event V)} {w : World V} {thread : ℕ}
    {context : Context} (hrun : Run (ExecStep World.exec) World.new history w)
    (hcount : invalidations history < 2 ^ 64) (hcall : w.calls thread = .run context) :
    (∀ other, (w.calls other).holds → other = thread) ∧
    ∃ bound, w.slot = .ready bound ∧ bound.generation = context.generation ∧
      bound.session ∈ w.opened ∧ ∀ other, .installed other ∈ effects history →
        other.session = bound.session → other = bound := by
  have h := consistent_of_run hrun hcount
  obtain ⟨bound, hslot, hgeneration⟩ := h.knowsAt hcall
  have hinstalled := h.slot bound hslot
  refine ⟨fun other hother => ?_, bound, hslot, hgeneration, (h.installed bound hinstalled).2,
    fun other hother => h.unique other bound hother hinstalled⟩
  have hthread := h.holder thread (by rw [hcall]; rfl)
  rw [h.holder other hother] at hthread
  exact Option.some.inj hthread

/-- A call at the driver while another waits. -/
theorem second_call_waits : ∃ history context, ∃ w : World ℕ,
    Run (ExecStep World.exec) World.new history w ∧ w.calls 1 = .run context ∧
      ∀ other, (w.calls other).holds → other = 1 := by
  have heval : ((runInputs World.exec World.new (.start 0 (.execute 0 none ['x']) ::
      .start 1 (.execute 0 none ['y']) :: .replicate 3 (.resume 1 willing))).map fun r =>
        (invalidations r.2, r.1.calls 1)) = some (0, .run ⟨0, 0, none, ['y']⟩) := by rfl
  obtain ⟨⟨w, history⟩, hinputs, heq⟩ := Option.map_eq_some_iff.mp heval
  obtain ⟨hcount, hcall⟩ := Prod.mk.inj heq
  have hrun := run_of_runInputs _ hinputs
  exact ⟨history, _, w, hrun, hcall,
    (runs_in_own_session hrun (by rw [hcount]; decide) hcall).1⟩

end Dbflux.Session

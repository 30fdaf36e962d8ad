import Dbflux.Lib.Ensures
import Dbflux.Postgres.Batch

/-!
# A bounded batch against one simple query

`execute_bounded_batch` stands in for PostgreSQL's implicit block with a block
of its own. The two runs are followed side by side: where the message is in
its implicit block, the driver's session is in a user's block with the same
effects, and the driver knows that this block is its own.

A plain `BEGIN` inside that block is never sent. Should the server reject it,
the message stops there and the driver goes on.

Results:
* `executeBoundedBatch_eq_simpleBatch_iff`: exactly when both runs end in the
  same session with the same outcome.
* `begin_with_no_break_space`: a batch on which they differ.
-/

namespace Dbflux.Postgres

open Lib

variable {D T : Type} {unicode : UnicodeTable} {server : Server D T}

/-! ## One statement sent alone -/

namespace Session

variable {s : Session D T} {text : Text}

/-- A message of one statement is the statement, unless the statement leaves an
implicit block to be committed. -/
theorem execute_eq_statement (h : ∀ t, (s.statement unicode server text).1.block ≠ .implicit t) :
    s.execute unicode server text = s.statement unicode server text := by
  unfold execute message
  generalize s.statement unicode server text = result at h ⊢
  obtain ⟨after, rejection⟩ := result
  cases rejection with
  | some rejection => rfl
  | none =>
    have hend : after.endMessage server = (after, none) := by
      unfold endMessage
      split
      next t hblock => exact absurd hblock (h t)
      next => rfl
    have hlast : message unicode server 1 after [] = (after, none) := by
      simp [message, hend]
    simp [hlast]

theorem reject_not_implicit (s : Session D T) (t : T) : s.reject.block ≠ .implicit t := by
  unfold reject
  split <;> simp

variable (hblock : ∀ t, s.block ≠ .implicit t)
include hblock

theorem close_not_implicit (t : T) : (s.close server text).1.block ≠ .implicit t := by
  unfold close
  split
  · exact s.reject_not_implicit t
  · simp
  · split
    next hb => exact absurd hb (hblock _)
    next => split <;> simp
    next => exact hblock t

variable (h : (∃ t, s.block = .user t) ∨ classifyTransactionControl unicode text ≠ .none)
include h

/-- In a user's block, and for every statement that is transaction control, no
implicit block is left behind. -/
theorem statement_not_implicit (t : T) :
    (s.statement unicode server text).1.block ≠ .implicit t := by
  have horReject : ∀ {α : Type} (result : Option α) (next : α → Session D T),
      (∀ a t, (next a).block ≠ .implicit t) →
      (s.orReject result next).1.block ≠ .implicit t := by
    intro α result next hnext
    unfold orReject
    split
    · exact hnext _ t
    · exact s.reject_not_implicit t
  unfold statement
  split
  · split_ifs
    · simp
    · exact hblock t
  · exact hblock t
  next hcontrol _ =>
    rcases h with ⟨u, hu⟩ | hne
    · refine horReject _ _ fun a t => ?_
      unfold withView
      rw [hu]
      simp
    · exact absurd hcontrol hne
  · exact horReject _ _ fun a t => by simp
  · exact close_not_implicit hblock t
  · exact horReject _ _ fun a t => by simp
  · exact horReject _ _ fun a t => by simp
  · exact s.reject_not_implicit t

/-- The same for a statement sent alone. -/
theorem execute_of_control : s.execute unicode server text = s.statement unicode server text :=
  execute_eq_statement (statement_not_implicit hblock h)

omit h

omit hblock

end Session

open Session (statement orReject view close execute_of_control withView)

/-! ## The driver's own statements -/

section Own

variable {s : Session D T}

theorem classify_begin : classifyTransactionControl unicode "BEGIN".toList = .open := rfl

theorem classify_commit : classifyTransactionControl unicode "COMMIT".toList = .close := rfl

theorem classify_rollback : classifyTransactionControl unicode "ROLLBACK".toList = .close := rfl

/-- `BEGIN` outside a block opens one. -/
theorem execute_begin (hblock : s.block = .none) :
    s.execute unicode server "BEGIN".toList = (⟨s.db, .user (server.start s.db)⟩, none) := by
  rw [execute_of_control (by simp [hblock]) (Or.inr (by rw [classify_begin]; simp))]
  simp only [statement, hblock, classify_begin, view, server.begin_run, orReject]

/-- `ROLLBACK` leaves no block, whatever the session was in. -/
theorem execute_rollback (hblock : ∀ t, s.block ≠ .implicit t) :
    s.execute unicode server "ROLLBACK".toList = (⟨s.db, .none⟩, none) := by
  rw [execute_of_control hblock (Or.inr (by rw [classify_rollback]; simp))]
  have hclose : s.close server "ROLLBACK".toList = (⟨s.db, .none⟩, none) := by
    simp only [close, server.rollback_closing]
  unfold statement
  rw [classify_rollback]
  cases hb : s.block with
  | aborted => simp only [server.rollback_closing, Option.isSome_some, if_true]
  | none | implicit t | user t => exact hclose

variable {t : T}

/-- `COMMIT` of the driver's block. -/
theorem execute_commit (hblock : s.block = .user t) :
    s.execute unicode server "COMMIT".toList = s.close server "COMMIT".toList := by
  rw [execute_of_control (by simp [hblock]) (Or.inl ⟨t, hblock⟩)]
  simp only [statement, hblock, classify_commit]

end Own

/-! ## The two runs side by side -/

/-- The block the message is in, the driver's idea of its block, and the block
the driver's session is in. -/
inductive Stands : Block T → BatchBlock → Block T → Prop
  | none : Stands .none .none .none
  | implicit (t : T) : Stands (.implicit t) .implicit (.user t)
  | user (t : T) : Stands (.user t) .explicit (.user t)

/-- The message stops at a plain `BEGIN` inside its implicit block, one the
driver does not send. -/
def stopsAtPlainBegin (unicode : UnicodeTable) (server : Server D T) :
    Session D T → List Text → Bool
  | _, [] => false
  | s, text :: rest =>
    match s.statement unicode server text with
    | (s, none) => stopsAtPlainBegin unicode server s rest
    | (_, some _) =>
      decide (classifyTransactionControl unicode text = .open) && isPlainBegin text &&
        match s.block with
        | .implicit _ => true
        | _ => false

section Statement

variable {s : Session D T} {text : Text}

variable {after : Session D T}

/-- Outside an aborted block a rejection is the statement's own. -/
theorem statement_rejection {rejection : Rejection} (hblock : s.block ≠ .aborted)
    (h : s.statement unicode server text = (after, some rejection)) : rejection = .other := by
  have horReject : ∀ {α : Type} (result : Option α) (next : α → Session D T),
      s.orReject result next = (after, some rejection) → rejection = .other := by
    intro α result next hresult
    unfold orReject at hresult
    split at hresult
    · cases hresult
    · cases hresult
      rfl
  unfold statement at h
  split at h
  next hb _ => exact absurd hb hblock
  next hb _ => exact absurd hb hblock
  · exact horReject _ _ h
  · exact horReject _ _ h
  · unfold close at h
    split at h
    · cases h; rfl
    · cases h
    · split at h
      · split at h
        · cases h
        · cases h; rfl
      · split at h
        · cases h
        · cases h; rfl
      · cases h
  · exact horReject _ _ h
  · exact horReject _ _ h
  · cases h; rfl

/-- A transaction-control statement outside a block leaves the driver's idea
of the block right. -/
theorem stands_after_none (hblock : s.block = .none)
    (hcontrol : classifyTransactionControl unicode text ≠ .none)
    (h : s.statement unicode server text = (after, none)) :
    Stands after.block (blockAfterStatement .none (classifyTransactionControl unicode text))
      after.block := by
  unfold statement at h
  rw [hblock] at h
  cases hc : classifyTransactionControl unicode text with
  | none => exact absurd hc hcontrol
  | «open» =>
    simp only [hc, orReject] at h
    split at h
    · cases h
      exact .user _
    · cases h
  | close =>
    simp only [hc, close, hblock] at h
    split at h
    · cases h
    · cases h
      exact .none
    · cases h
      rw [hblock]
      exact .none
  | requiresExplicitBlock | prepareTransaction =>
    simp only [hc] at h
    cases h

/-- The same inside a user's block. -/
theorem stands_after_user (hblock : s.block = .user t)
    (hcontrol : classifyTransactionControl unicode text ≠ .prepareTransaction)
    (h : s.statement unicode server text = (after, none)) :
    Stands after.block (blockAfterStatement .explicit (classifyTransactionControl unicode text))
      after.block := by
  unfold statement at h
  cases hc : classifyTransactionControl unicode text with
  | none | «open» | requiresExplicitBlock =>
    simp only [hc, orReject, withView, hblock] at h
    split at h
    · cases h
      exact .user _
    · cases h
  | close =>
    simp only [hc, close, hblock] at h
    split at h
    · cases h
    · cases h
      exact .none
    · split at h
      · cases h
        exact .none
      · cases h
  | prepareTransaction => exact absurd hc hcontrol

/-- One statement in the message's implicit block, or the one that opens it,
and the same statement in the driver's block: both are accepted and the
blocks still correspond, or both are rejected and the message is out of
its block. -/
theorem statement_in_implicit
    (hblock : s.block = .implicit t ∨ s.block = .none ∧ t = server.start s.db ∧
      classifyTransactionControl unicode text = .none)
    (hcontrol : classifyTransactionControl unicode text ≠ .requiresExplicitBlock ∧
      classifyTransactionControl unicode text ≠ .prepareTransaction) :
    (∃ after after', s.statement unicode server text = (after, none) ∧
      statement unicode server ⟨s.db, .user t⟩ text = (after', none) ∧
      after.db = after'.db ∧
      Stands after.block
        (blockAfterStatement .implicit (classifyTransactionControl unicode text)) after'.block) ∨
    (∃ after', s.statement unicode server text = (⟨after'.db, .none⟩, some .other) ∧
      statement unicode server ⟨s.db, .user t⟩ text = (after', some .other) ∧
      ∀ u, after'.block ≠ .implicit u) := by
  have hview : s.view server = t := by
    rcases hblock with hb | ⟨hb, ht, -⟩
    · simp [view, hb]
    · simp [view, hb, ht]
  have hreject : s.reject = ⟨s.db, .none⟩ := by
    rcases hblock with hb | ⟨hb, -⟩ <;> simp [Session.reject, hb]
  have hwith : ∀ u, s.withView u = ⟨s.db, .implicit u⟩ := by
    intro u
    rcases hblock with hb | ⟨hb, -⟩ <;> simp [withView, hb]
  cases hc : classifyTransactionControl unicode text with
  | none =>
    have hleft : s.statement unicode server text =
        s.orReject (server.run text s.db t) s.withView := by
      rcases hblock with hb | ⟨hb, -⟩ <;> simp [statement, hb, hc, hview]
    rw [hleft]
    simp only [statement, hc, view]
    cases hrun : server.run text s.db t with
    | some u => exact .inl ⟨_, _, rfl, rfl, by rw [hwith]; rfl, by rw [hwith]; exact .implicit u⟩
    | none =>
      exact .inr ⟨⟨s.db, .aborted⟩, by simp [orReject, hreject], rfl, by simp⟩
  | «open» =>
    obtain hb := hblock.resolve_right fun h => by rw [hc] at h; cases h.2.2
    simp only [statement, hb, hc, view]
    cases hrun : server.run text s.db t with
    | some u => exact .inl ⟨_, _, rfl, rfl, rfl, .user u⟩
    | none =>
      exact .inr ⟨⟨s.db, .aborted⟩, by simp [orReject, hreject], rfl, by simp⟩
  | close =>
    obtain hb := hblock.resolve_right fun h => by rw [hc] at h; cases h.2.2
    simp only [statement, hb, hc, close]
    cases server.closing text with
    | none => exact .inr ⟨⟨s.db, .aborted⟩, by simp [hreject], rfl, by simp⟩
    | some closing =>
      cases closing with
      | rollback => exact .inl ⟨_, _, rfl, rfl, rfl, .none⟩
      | commit =>
        cases server.commit s.db t with
        | some db => exact .inl ⟨_, _, rfl, rfl, rfl, .none⟩
        | none => exact .inr ⟨⟨s.db, .none⟩, rfl, rfl, by simp⟩
  | requiresExplicitBlock => exact absurd hc hcontrol.1
  | prepareTransaction => exact absurd hc hcontrol.2

end Statement

section Loop

variable {script : List Text}

variable {index : ℕ} {s : Session D T} {block : BatchBlock} {rest : List (Text × Bool)}
  {text : Text}

/-- A batch that stopped did so at a statement it had not run yet. -/
theorem le_of_failed {cancelled : ℕ → Bool} {at_ : ℕ} {s' : Session D T}
    {note : Option TransactionStateNote}
    (h : runBoundedBatch unicode server script cancelled index s block rest =
      (s', .failed at_ note)) : index ≤ at_ := by
  have hfailed : ∀ {index : ℕ} {s : Session D T} {rejection : Rejection},
      failedBatch unicode server script index s rejection = (s', .failed at_ note) →
      index ≤ at_ := by
    intro index s rejection hbatch
    have := congrArg Prod.snd hbatch
    cases this
    exact le_refl _
  induction rest generalizing index s block with
  | nil =>
    unfold runBoundedBatch at h
    split_ifs at h
    · split at h
      · cases h
      · exact hfailed h
    · cases h
  | cons head rest ih =>
    simp only [runBoundedBatch] at h
    split_ifs at h
    · cases h
    · exact (Nat.le_succ _).trans (ih h)
    all_goals
      split at h
      · exact hfailed h
      · split at h
        · exact (Nat.le_succ _).trans (ih h)
        · split_ifs at h
          · cases h
          · exact hfailed h

/-- A statement the driver opens its own block for. -/
theorem runBoundedBatch_opening (hblock : s.block = .none)
    (hcontrol : classifyTransactionControl unicode text = .none) :
    runBoundedBatch unicode server script (fun _ => false) index s block ((text, true) :: rest) =
      runBoundedBatch unicode server script (fun _ => false) index
        ⟨s.db, .user (server.start s.db)⟩ .implicit ((text, false) :: rest) := by
  simp only [runBoundedBatch, hcontrol]
  simp only [if_true, execute_begin hblock, Bool.false_eq_true, if_false, reduceCtorEq, false_and]

theorem simpleBatch_cons {texts : List Text} :
    simpleBatch unicode server script index s (text :: texts) =
      match s.statement unicode server text with
      | (s, none) => simpleBatch unicode server script (index + 1) s texts
      | (s, some rejection) => failedBatch unicode server script index s rejection := by
  unfold simpleBatch
  simp only [Session.message]
  generalize s.statement unicode server text = result
  obtain ⟨after, _ | rejection⟩ := result <;> rfl

theorem planBoundedBatch_cons {control : TransactionControl} {controls : List TransactionControl}
    {plan : List Bool} (h : planBoundedBatch block (control :: controls) = .ok plan) :
    ∃ rest, plan = decide (control = .none ∧ block = .none) :: rest ∧
      control ≠ .prepareTransaction ∧
      ¬ (control = .requiresExplicitBlock ∧ block = .implicit) ∧
      planBoundedBatch (blockAfterStatement
        (if control = .none ∧ block = .none then .implicit else block) control) controls =
          .ok rest := by
  simp only [planBoundedBatch] at h
  generalize hnext : (if control = .none ∧ block = .none then .implicit else block) =
    next at h ⊢
  split_ifs at h with hprepare hrequires
  obtain ⟨rest, hrest, rfl⟩ := map_eq_ok.mp h
  refine ⟨rest, rfl, hprepare, ?_, hrest⟩
  rintro ⟨hcontrol, hblock⟩
  exact hrequires ⟨hcontrol, by rw [← hnext, if_neg (by simp [hcontrol]), hblock]⟩

/-- From corresponding blocks, both runs of `texts` end alike exactly when the
message does not stop at a plain `BEGIN` in its implicit block. -/
def Agree (unicode : UnicodeTable) (server : Server D T) (script texts : List Text) : Prop :=
  ∀ {plan : List Bool} {index : ℕ} {db : D} {simpleBlock sessionBlock : Block T}
    {block : BatchBlock}, Stands simpleBlock block sessionBlock →
    planBoundedBatch block (texts.map (classifyTransactionControl unicode)) = .ok plan →
    (runBoundedBatch unicode server script (fun _ => false) index ⟨db, sessionBlock⟩ block
        (texts.zip plan) =
      simpleBatch unicode server script index ⟨db, simpleBlock⟩ texts ↔
    stopsAtPlainBegin unicode server ⟨db, simpleBlock⟩ texts = false)

theorem agree_nil : Agree unicode server script [] := by
  intro plan index db simpleBlock sessionBlock block hstands _
  simp only [stopsAtPlainBegin, iff_true, List.zip_nil_left]
  cases hstands with
  | none | user t => rfl
  | implicit t =>
    have hcommit : Session.execute unicode server ⟨db, .user t⟩ "COMMIT".toList = _ :=
      execute_commit rfl
    simp only [runBoundedBatch, if_true, hcommit, simpleBatch, Session.message,
      Session.endMessage, close, server.commit_closing]
    cases server.commit db t with
    | some db' => rfl
    | none => rfl

section Cons

variable {text : Text} {texts : List Text} {plan : List Bool} {index : ℕ} {db : D} {b : Block T}
  {block : BatchBlock}

variable (ih : Agree unicode server script texts)
include ih

/-- Where both are in the same block, the driver sends what the message runs. -/
theorem agree_same (hlive : b ≠ .aborted) (hb : ∀ t, b ≠ .implicit t) (hblock : block ≠ .implicit)
    (hcontrol : (∃ t, b = .user t) ∨ classifyTransactionControl unicode text ≠ .none)
    (hafter : ∀ after, statement unicode server ⟨db, b⟩ text = (after, none) → Stands after.block
        (blockAfterStatement block (classifyTransactionControl unicode text)) after.block)
    (hplan : planBoundedBatch (blockAfterStatement block (classifyTransactionControl unicode text))
      (texts.map (classifyTransactionControl unicode)) = .ok plan) :
    runBoundedBatch unicode server script (fun _ => false) index ⟨db, b⟩ block
        ((text, false) :: texts.zip plan) =
      simpleBatch unicode server script index ⟨db, b⟩ (text :: texts) ↔
    stopsAtPlainBegin unicode server ⟨db, b⟩ (text :: texts) = false := by
  simp only [runBoundedBatch]
  rw [if_neg (by simp), if_neg (fun h => hblock h.2.1), simpleBatch_cons]
  simp only [Bool.false_eq_true, if_false]
  rw [execute_of_control hb hcontrol, stopsAtPlainBegin]
  generalize hresult : statement unicode server ⟨db, b⟩ text = result at hafter ⊢
  obtain ⟨after, _ | rejection⟩ := result
  · exact ih (hafter after rfl) hplan
  · have hother := statement_rejection hlive hresult
    subst hother
    simp [rollbackImplicitBlock, hblock]

/-- Inside the implicit block, and at the statement that opens it. -/
theorem agree_implicit (hb : b = .implicit t ∨
      b = .none ∧ t = server.start db ∧ classifyTransactionControl unicode text = .none)
    (hcontrol : classifyTransactionControl unicode text ≠ .requiresExplicitBlock ∧
      classifyTransactionControl unicode text ≠ .prepareTransaction)
    (hsent : ¬ (classifyTransactionControl unicode text = .open ∧ isPlainBegin text))
    (hplan : planBoundedBatch
      (blockAfterStatement .implicit (classifyTransactionControl unicode text))
      (texts.map (classifyTransactionControl unicode)) = .ok plan) :
    runBoundedBatch unicode server script (fun _ => false) index ⟨db, .user t⟩ .implicit
        ((text, false) :: texts.zip plan) =
      simpleBatch unicode server script index ⟨db, b⟩ (text :: texts) ↔
    stopsAtPlainBegin unicode server ⟨db, b⟩ (text :: texts) = false := by
  have hexecute : Session.execute unicode server ⟨db, .user t⟩ text =
      statement unicode server ⟨db, .user t⟩ text :=
    execute_of_control (by simp) (Or.inl ⟨t, rfl⟩)
  simp only [runBoundedBatch]
  rw [if_neg (by simp), if_neg (fun h => hsent ⟨h.1, h.2.2⟩), simpleBatch_cons]
  simp only [Bool.false_eq_true, if_false]
  rw [hexecute, stopsAtPlainBegin]
  rcases statement_in_implicit (s := ⟨db, b⟩) hb hcontrol with
    ⟨after, after', hleft, hright, hdb, hstands⟩ | ⟨after', hleft, hright, hout⟩
  · simp only [hleft, hright]
    obtain ⟨adb', ablock'⟩ := after'
    subst hdb
    exact ih hstands hplan
  · -- The driver's `ROLLBACK` undoes what the server undoes by itself.
    have hsent' : (decide (classifyTransactionControl unicode text = .open) &&
        isPlainBegin text) = false := by
      simpa using hsent
    simp only [hleft, hright, hsent', Bool.false_and, reduceCtorEq, if_false,
      rollbackImplicitBlock, if_true, execute_rollback hout]

/-- At a plain `BEGIN` the driver's block becomes the user's, accepted or not. -/
theorem agree_plainBegin {opens : Bool} (hopen : classifyTransactionControl unicode text = .open)
    (hplain : isPlainBegin text)
    (hplan : planBoundedBatch .explicit (texts.map (classifyTransactionControl unicode)) = .ok plan)
    :
    runBoundedBatch unicode server script (fun _ => false) index ⟨db, .user t⟩ .implicit
        ((text, opens) :: texts.zip plan) =
      simpleBatch unicode server script index ⟨db, .implicit t⟩ (text :: texts) ↔
    stopsAtPlainBegin unicode server ⟨db, .implicit t⟩ (text :: texts) = false := by
  have hswallow : runBoundedBatch unicode server script (fun _ => false) index ⟨db, .user t⟩
      .implicit ((text, opens) :: texts.zip plan) =
      runBoundedBatch unicode server script (fun _ => false) (index + 1) ⟨db, .user t⟩ .explicit
        (texts.zip plan) := by
    simp only [runBoundedBatch]
    rw [if_neg (by simp), if_pos (by simp [hopen, hplain])]
  rw [hswallow, simpleBatch_cons, stopsAtPlainBegin]
  cases hrun : server.run text db t with
  | some u =>
    have hu : u = t := server.plainBegin_run text db t u hplain hrun
    subst hu
    simp only [statement, hopen, view, hrun, orReject]
    exact ih (.user u) hplan
  | none =>
    simp only [statement, hopen, view, hrun, orReject, hplain,
      decide_true, Bool.and_self, Bool.true_eq_false, iff_false]
    intro heq
    have hle := le_of_failed (heq.trans rfl)
    omega

omit ih

end Cons

/-- **The two runs agree**, statement by statement. -/
theorem agree (texts : List Text) : Agree unicode server script texts := by
  induction texts with
  | nil => exact agree_nil
  | cons text texts ih =>
    intro plan index db simpleBlock sessionBlock block hstands hplan
    obtain ⟨rest, rfl, hprepare, hrequires, hrest⟩ := planBoundedBatch_cons hplan
    rw [List.zip_cons_cons]
    cases hstands with
    | none =>
      by_cases hcontrol : classifyTransactionControl unicode text = .none
      · rw [if_pos ⟨hcontrol, rfl⟩] at hrest
        rw [decide_eq_true ⟨hcontrol, rfl⟩, runBoundedBatch_opening rfl hcontrol]
        exact agree_implicit ih (.inr ⟨rfl, rfl, hcontrol⟩) (by simp [hcontrol])
          (by simp [hcontrol]) hrest
      · rw [if_neg (fun h => hcontrol h.1)] at hrest
        rw [decide_eq_false (fun h => hcontrol h.1)]
        exact agree_same ih (by simp) (by simp) (by simp) (.inr hcontrol)
          (fun after => stands_after_none rfl hcontrol) hrest
    | implicit t =>
      rw [if_neg (by simp)] at hrest
      by_cases hplain : classifyTransactionControl unicode text = .open ∧ isPlainBegin text
      · rw [hplain.1] at hrest
        exact agree_plainBegin ih hplain.1 hplain.2 hrest
      · rw [decide_eq_false (by simp)]
        exact agree_implicit ih (.inl rfl) ⟨fun h => hrequires ⟨h, rfl⟩, hprepare⟩ hplain hrest
    | user t =>
      rw [if_neg (by simp)] at hrest
      rw [decide_eq_false (by simp)]
      exact agree_same ih (by simp) (by simp) (by simp) (.inl ⟨t, rfl⟩)
        (fun after => stands_after_user rfl hprepare) hrest

end Loop

/-- **A row-limited batch against one simple query.** From a session outside a
block or in a healthy user's block, without cancellation, a batch the plan
accepts ends in the session and with the outcome that the same statements
have as one simple-protocol message followed by the recovery, exactly when
that message does not stop at a plain `BEGIN` inside its implicit block.
The session is what is committed, the block and what the block has done;
the outcome is the first failing statement and the note on the block. -/
theorem executeBoundedBatch_eq_simpleBatch_iff {script texts : List Text}
    {initialBlock : BatchBlock} {s : Session D T} {result : Session D T × Outcome}
    (hinitial : (s.block = .none ∧ initialBlock = .none) ∨
      (∃ t, s.block = .user t) ∧ initialBlock = .explicit)
    (hplan : executeBoundedBatch unicode server script (fun _ => false) initialBlock s texts =
      .ok result) :
    result = simpleBatch unicode server script 0 s texts ↔
      stopsAtPlainBegin unicode server s texts = false := by
  have hstands : Stands s.block initialBlock s.block := by
    rcases hinitial with ⟨hblock, rfl⟩ | ⟨⟨t, hblock⟩, rfl⟩
    · rw [hblock]
      exact .none
    · rw [hblock]
      exact .user t
  obtain ⟨plan, hok, rfl⟩ := map_eq_ok.mp hplan
  exact agree texts hstands hok

/-! ## A `BEGIN` the server cannot read -/

/-- `BEGIN WORK` with a no-break space. The driver splits words at any Unicode
white space; to PostgreSQL the character is part of a name. -/
def noBreakBegin : Text := "BEGIN\u00a0WORK".toList

/-- A server with one table: `INSERT` adds a row, and the text above is a
syntax error. -/
def oneTable : Server (List ℕ) (List ℕ) where
  start := id
  run := fun text _ rows =>
    if text = "INSERT".toList then some (rows ++ [1])
    else if text = noBreakBegin then none else some rows
  commit := fun _ rows => some rows
  closing := fun text =>
    if text = "COMMIT".toList then some .commit
    else if text = "ROLLBACK".toList then some .rollback else none
  explicit := fun _ _ _ => none
  prepare := fun _ _ _ => none
  begin_run := fun _ _ => rfl
  commit_closing := rfl
  rollback_closing := rfl
  plainBegin_run := by
    intro text db t t' hplain hrun
    split_ifs at hrun with hinsert
    · rw [hinsert] at hplain
      exact absurd hplain (by decide +kernel)
    · exact (Option.some.inj hrun).symm

/-- A row, a plain `BEGIN` that adopts it, a second row, and a rollback of
both; then a third row. -/
theorem adopted_block_rolls_back : ∃ result, executeBoundedBatch .ascii oneTable
        (["INSERT", "BEGIN", "INSERT", "ROLLBACK", "INSERT"].map String.toList) (fun _ => false)
        .none ⟨[], .none⟩
        (["INSERT", "BEGIN", "INSERT", "ROLLBACK", "INSERT"].map String.toList) = .ok result ∧
      result = (⟨[1], .none⟩, .completed) ∧
      simpleBatch .ascii oneTable
        (["INSERT", "BEGIN", "INSERT", "ROLLBACK", "INSERT"].map String.toList) 0 ⟨[], .none⟩
        (["INSERT", "BEGIN", "INSERT", "ROLLBACK", "INSERT"].map String.toList) = result := by
  refine ⟨_, rfl, rfl, ?_⟩
  exact ((executeBoundedBatch_eq_simpleBatch_iff (.inl ⟨rfl, rfl⟩) rfl).mpr rfl).symm

/-- As one message the batch stops at its second statement and nothing is
left. The driver never sends that statement: both rows are committed and
the batch is reported as complete. -/
theorem begin_with_no_break_space : executeBoundedBatch .ascii oneTable
        ["INSERT".toList, noBreakBegin, "INSERT".toList, "COMMIT".toList] (fun _ => false) .none
        ⟨[], .none⟩ ["INSERT".toList, noBreakBegin, "INSERT".toList, "COMMIT".toList] =
      .ok (⟨[1, 1], .none⟩, .completed) ∧
    simpleBatch .ascii oneTable ["INSERT".toList, noBreakBegin, "INSERT".toList, "COMMIT".toList] 0
        ⟨[], .none⟩ ["INSERT".toList, noBreakBegin, "INSERT".toList, "COMMIT".toList] =
      (⟨[], .none⟩, .failed 1 none) := by
  constructor <;> rfl

end Dbflux.Postgres

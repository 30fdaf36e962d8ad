import Dbflux.Lib.Transition
import Dbflux.Approval.Model

/-!
# One approval, one call

`consume_approved` moves an entry from approved to consumed in one guarded
statement, so two consumers never both get it. `approve` reads the status in
one statement and writes it in another without a guard, so its write can also
land on an entry that was rejected or consumed in between, and makes it
approved again.

Results:
* `settled_exec`: an entry that is rejected or consumed stays so over every
  statement other than such a late write.
* `safe_of_timely_approvals`: in a history without late writes no entry is
  returned by `consume_approved` twice, or after it was rejected.
-/

namespace Dbflux.Approval

open Lib List

variable {P : Type}

/-- One statement and what its call returned, if it returned. -/
abbrev Event (P : Type) := (ℕ × Statement P) × Option (Response P)

/-- The entry `consume_approved` returned. -/
def consumedId (event : Event P) : Option Uuid :=
  match event.2 with
  | some (.consumed (some pending)) => some pending.id
  | _ => none

/-- The entry for which `reject` returned `Ok`. -/
def rejectedId (event : Event P) : Option Uuid :=
  match event.2 with
  | some (.rejected pending) => some pending.id
  | _ => none

/-- An entry returned by `consume_approved` was neither returned by it nor
rejected earlier in the history. -/
def Safe (history : List (Event P)) : Prop :=
  history.Pairwise fun earlier later => (consumedId later).isSome →
    consumedId earlier ≠ consumedId later ∧ rejectedId earlier ≠ consumedId later

instance (history : List (Event P)) : Decidable (Safe history) :=
  inferInstanceAs (Decidable (history.Pairwise _))

/-- The statement is not the write of an `approve` onto an entry that has been
rejected or consumed since it was read. -/
def TimelyApproval (w : World P) (event : Event P) : Prop :=
  event.1.2 = .resume → ∀ id plan, w.calls event.1.1 = .approveWrite id plan →
    ∀ row ∈ w.rows, row.id = id → row.status ≠ .rejected ∧ row.status ≠ .consumed

/-- The entry was handed out, and if it is still in the table it is rejected
or consumed. -/
def Settled (w : World P) (id : Uuid) : Prop :=
  id ∈ w.used ∧ ∀ row ∈ w.rows, row.id = id → row.status = .rejected ∨ row.status = .consumed

/-! ## What a statement does -/

variable {rows : List (PendingExecution P)} {id : Uuid} {w w' : World P} {event : Event P}

/-- A row of the table after the next statement of a call. -/
def resumedRow (call : Call P) (row : PendingExecution P) : PendingExecution P :=
  match call with
  | .approveWrite id _ => if row.id = id then { row with status := .approved } else row
  | .rejectWrite id reason =>
    if row.id = id then { row with status := .rejected, rejectionReason := reason } else row
  | .consumeUpdate _ candidate _ =>
    if row.id = candidate.id ∧ row.status = .approved then { row with status := .consumed }
    else row
  | _ => row

/-- The updates write no id and no plan, and approve only what `approve` read. -/
theorem resumedRow_cases (call : Call P) (row : PendingExecution P) :
    (resumedRow call row).id = row.id ∧ (resumedRow call row).plan = row.plan ∧
      ((resumedRow call row).status = row.status ∨ (resumedRow call row).status = .rejected ∨
        (resumedRow call row).status = .consumed ∨
        ∃ plan, call = .approveWrite row.id plan) := by
  cases call with
  | approveWrite id plan =>
    simp only [resumedRow]
    split_ifs with hid
    · exact ⟨rfl, rfl, .inr (.inr (.inr ⟨plan, by rw [hid]⟩))⟩
    · exact ⟨rfl, rfl, .inl rfl⟩
  | rejectWrite id reason =>
    simp only [resumedRow]
    split_ifs
    · exact ⟨rfl, rfl, .inr (.inl rfl)⟩
    · exact ⟨rfl, rfl, .inl rfl⟩
  | consumeUpdate plan candidate rest =>
    simp only [resumedRow]
    split_ifs
    · exact ⟨rfl, rfl, .inr (.inr (.inl rfl))⟩
    · exact ⟨rfl, rfl, .inl rfl⟩
  | _ => exact ⟨rfl, rfl, .inl rfl⟩

variable [DecidableEq P]

/-- Where the candidate loop leaves a call, and what it returns. -/
inductive Tries (plan : ExecutionPlan P) (candidates : List (PendingExecution P)) :
    Call P → Option (Response P) → Prop
  | exhausted : Tries plan candidates .idle (some (.consumed none))
  | next {candidate rest} : approvalMatchesPlan candidate.plan plan = true →
      (∀ row ∈ candidate :: rest, row ∈ candidates) →
      Tries plan candidates (.consumeUpdate plan candidate rest) none

theorem tries_nextCandidate (plan : ExecutionPlan P) (candidates : List (PendingExecution P)) :
    Tries plan candidates (nextCandidate plan candidates).1 (nextCandidate plan candidates).2 := by
  unfold nextCandidate
  split
  · exact .exhausted
  next candidate rest hdrop =>
    refine .next ?_ fun row hrow => ?_
    · have hhead := head?_dropWhile_not
        (fun found : PendingExecution P => !approvalMatchesPlan found.plan plan) candidates
      rw [hdrop] at hhead
      simpa using hhead
    · rw [← hdrop] at hrow
      exact (dropWhile_sublist _).subset hrow

variable {call : Call P}

theorem Tries.mono {plan : ExecutionPlan P} {candidates : List (PendingExecution P)}
    {response : Option (Response P)} (h : Tries plan candidates call response)
    (hsub : ∀ row ∈ candidates, row ∈ rows) : Tries plan rows call response := by
  cases h with
  | exhausted => exact .exhausted
  | next hmatch hmem => exact .next hmatch fun row hrow => hsub row (hmem row hrow)

/-- Where the next statement of a call leaves it, and what it returns. -/
inductive Resumes (rows : List (PendingExecution P)) :
    Call P → Call P → Option (Response P) → Prop
  | idle : Resumes rows .idle .idle none
  | failed {call error} : Resumes rows call .idle (some (.failed error))
  | approveWritten {id plan} : Resumes rows (.approveWrite id plan) (.approveRead id plan) none
  | approved {id plan pending} :
      Resumes rows (.approveRead id plan) .idle (some (.approved pending plan))
  | rejectWritten {row reason} : row ∈ rows →
      Resumes rows (.rejectWrite row.id reason) (.rejectRead row.id) none
  | rejected {pending} : Resumes rows (.rejectRead pending.id) .idle (some (.rejected pending))
  | consumed {plan candidate rest row} : row ∈ rows → row.id = candidate.id →
      row.status = .approved → Resumes rows (.consumeUpdate plan candidate rest) .idle
        (some (.consumed (some { candidate with status := .consumed })))
  | tries {plan candidate rest call response} : Tries plan rest call response →
      Resumes rows (.consumeUpdate plan candidate rest) call response

/-- **What the next statement of a call can do.** -/
theorem resume_cases (rows : List (PendingExecution P)) (call : Call P) :
    (resume rows call).1 = rows.map (resumedRow call) ∧
      Resumes rows call (resume rows call).2.1 (resume rows call).2.2 := by
  cases call with
  | idle => exact ⟨(map_id rows).symm, .idle⟩
  | approveWrite id plan =>
    simp only [resume]
    split_ifs
    · exact ⟨by simp [updateStatus, updateWhere, resumedRow], .failed⟩
    · exact ⟨by simp [updateStatus, updateWhere, resumedRow], .approveWritten⟩
  | approveRead id plan =>
    simp only [resume]
    split
    · exact ⟨(map_id rows).symm, .failed⟩
    · exact ⟨(map_id rows).symm, .approved⟩
  | rejectWrite id reason =>
    simp only [resume]
    split_ifs with hzero
    · exact ⟨by simp [updateRejected, updateWhere, resumedRow], .failed⟩
    · have hpos : 0 < rows.countP fun row => decide (row.id = id) := Nat.pos_of_ne_zero hzero
      obtain ⟨row, hrow, hid⟩ := countP_pos_iff.mp hpos
      cases of_decide_eq_true hid
      exact ⟨by simp [updateRejected, updateWhere, resumedRow], .rejectWritten hrow⟩
  | rejectRead id =>
    simp only [resume]
    split
    · exact ⟨(map_id rows).symm, .failed⟩
    next pending hselect =>
      have hid := find?_some hselect
      cases of_decide_eq_true hid
      exact ⟨(map_id rows).symm, .rejected⟩
  | consumeUpdate plan candidate rest =>
    have hrows : (updateConsumed rows candidate.id).2 =
        rows.map (resumedRow (.consumeUpdate plan candidate rest)) := by
      simp [updateConsumed, updateWhere, resumedRow]
    simp only [resume]
    split_ifs with hone
    · have hpos : 0 < (updateConsumed rows candidate.id).1 := hone ▸ Nat.one_pos
      obtain ⟨row, hrow, hcond⟩ := countP_pos_iff.mp hpos
      simp only [Bool.and_eq_true, decide_eq_true_eq] at hcond
      exact ⟨hrows, .consumed hrow hcond.1 hcond.2⟩
    · exact ⟨hrows, .tries (tries_nextCandidate plan rest)⟩

/-- Where the first statement of a call leaves it, and what it returns. -/
inductive Starts (rows : List (PendingExecution P)) :
    Begin P → Call P → Option (Response P) → Prop
  | requested {call pending} : Starts rows call .idle (some (.requested pending))
  | purged {call count} : Starts rows call .idle (some (.purged count))
  | failed {call error} : Starts rows call .idle (some (.failed error))
  | approves {call row plan} : row ∈ rows → row.status = .pending →
      Starts rows call (.approveWrite row.id plan) none
  | rejects {call id reason} : Starts rows call (.rejectWrite id reason) none
  | tries {now plan call response} : Tries plan rows call response →
      Starts rows (.consume now plan) call response

/-- **What the first statement of a call can do.** -/
theorem start_cases (rows : List (PendingExecution P)) (call : Begin P) :
    Starts rows call (start rows call).2.1 (start rows call).2.2 := by
  cases call with
  | request nowMs ttlMs createdAt plan id => exact .requested
  | approve now id =>
    simp only [start, checkPending]
    split
    · exact .failed
    next pending hselect =>
      have hcond := find?_some hselect
      simp only [Bool.and_eq_true, decide_eq_true_eq] at hcond
      obtain ⟨⟨rfl, hpending⟩, -⟩ := hcond
      rw [if_neg (not_not_intro hpending)]
      exact .approves (mem_of_find?_eq_some hselect) hpending
  | reject now id reason =>
    simp only [start, checkPending]
    split
    · exact .failed
    · split_ifs
      · exact .failed
      · exact .rejects
  | consume now plan =>
    refine .tries ((tries_nextCandidate plan _).mono fun row hrow => ?_)
    rw [selectApproved, mem_insertionSort] at hrow
    exact (mem_filter.mp hrow).1
  | purge nowMs => exact .purged

/-- The ids of the table a resumed call leaves. -/
theorem ids_resume (rows : List (PendingExecution P)) (call : Call P) :
    (resume rows call).1.map (·.id) = rows.map (·.id) := by
  rw [(resume_cases rows call).1, map_map]
  exact map_congr_left fun row _ => (resumedRow_cases call row).1

theorem resume_row {row : PendingExecution P} (hrow : row ∈ (resume rows call).1) :
    ∃ old ∈ rows, resumedRow call old = row := by
  rw [(resume_cases rows call).1] at hrow
  exact mem_map.mp hrow

/-- Every row with the id is rejected or consumed. -/
abbrev Closed (rows : List (PendingExecution P)) (id : Uuid) : Prop :=
  ∀ row ∈ rows, row.id = id → row.status = .rejected ∨ row.status = .consumed

theorem settled_resume (htimely : ∀ j plan, call = .approveWrite j plan →
      ∀ row ∈ rows, row.id = j → row.status ≠ .rejected ∧ row.status ≠ .consumed)
    (h : Closed rows id) : Closed (resume rows call).1 id := by
  intro row hrow hid
  obtain ⟨old, hold, rfl⟩ := resume_row hrow
  obtain ⟨hkept, -, hstatus⟩ := resumedRow_cases call old
  have hsettled := h old hold (hkept.symm.trans hid)
  obtain hsame | hrejected | hconsumed | ⟨plan, hcall⟩ := hstatus
  · rwa [hsame]
  · exact .inl hrejected
  · exact .inr hconsumed
  · have hopen := htimely _ plan hcall old hold rfl
    exact absurd hsettled (not_or.mpr hopen)

theorem settled_start {call : Begin P} (hnew : call.newId ≠ some id) (h : Closed rows id) :
    Closed (start rows call).1 id := by
  cases call with
  | request nowMs ttlMs createdAt plan j =>
    intro row hrow hrid
    rcases mem_append.mp hrow with hold | hlast
    · exact h row hold hrid
    · rw [mem_singleton.mp hlast] at hrid
      exact absurd (congrArg some hrid) hnew
  | approve | reject | consume => exact h
  | purge nowMs => exact fun row hrow => h row (mem_filter.mp hrow).1

/-! ## One statement -/

/-- What a statement can do. -/
theorem exec_cases {proc : ℕ} {st : Statement P} {r : Option (Response P)}
    (h : w.exec (proc, st) = some (w', r)) :
    (∃ call, st = .start call ∧ (∀ id ∈ call.newId, id ∉ w.used) ∧
      w' = ⟨(start w.rows call).1, Function.update w.calls proc (start w.rows call).2.1,
        call.newId.toList ++ w.used⟩ ∧ r = (start w.rows call).2.2) ∨
    (st = .resume ∧ w' = ⟨(resume w.rows (w.calls proc)).1,
        Function.update w.calls proc (resume w.rows (w.calls proc)).2.1, w.used⟩ ∧
      r = (resume w.rows (w.calls proc)).2.2) ∨
    (∃ message, st = .fail message ∧ w' = ⟨w.rows, Function.update w.calls proc .idle, w.used⟩ ∧
      r = some (.failed (.store (.backend message)))) := by
  cases st with
  | start call =>
    simp only [World.exec, World.after, Option.ite_none_right_eq_some, Option.some.injEq,
      Prod.mk.injEq] at h
    obtain ⟨⟨-, hfresh⟩, rfl, rfl⟩ := h
    refine .inl ⟨call, rfl, fun id hid => ?_, rfl, rfl⟩
    rw [Option.mem_def.mp hid] at hfresh
    simpa using hfresh
  | resume =>
    simp only [World.exec, World.after, Option.ite_none_left_eq_some, Option.some.injEq,
      Prod.mk.injEq] at h
    obtain ⟨-, rfl, rfl⟩ := h
    exact .inr (.inl ⟨rfl, rfl, rfl⟩)
  | fail message =>
    obtain ⟨rfl, rfl⟩ := h
    exact .inr (.inr ⟨message, rfl, rfl, rfl⟩)

theorem calls_exec {proc : ℕ} {st : Statement P} {r : Option (Response P)}
    (h : w.exec (proc, st) = some (w', r)) : ∀ q, q ≠ proc → w'.calls q = w.calls q := by
  intro q hq
  rcases exec_cases h with ⟨call, -, -, rfl, -⟩ | ⟨-, rfl, -⟩ | ⟨message, -, rfl, -⟩ <;>
    exact Function.update_of_ne hq _ _

/-- A rejected or consumed entry stays so over every statement but the late
write of an `approve`. -/
theorem settled_exec (h : ExecStep World.exec w event w') (htimely : TimelyApproval w event)
    (hsettled : Settled w id) : Settled w' id := by
  obtain ⟨hused, hrows⟩ := hsettled
  rcases exec_cases h with ⟨call, -, hfresh, rfl, -⟩ | ⟨hst, rfl, -⟩ | ⟨message, -, rfl, -⟩
  · refine ⟨mem_append_right _ hused, settled_start ?_ hrows⟩
    exact fun hnew => hfresh id hnew hused
  · exact ⟨hused, settled_resume (htimely hst) hrows⟩
  · exact ⟨hused, hrows⟩

/-- Ids stay the primary key, and every id in the table was handed out. -/
structure Keyed (w : World P) : Prop where
  nodup : (w.rows.map (·.id)).Nodup
  used : ∀ row ∈ w.rows, row.id ∈ w.used

theorem keyed_start {call : Begin P} (calls : ℕ → Call P) (h : Keyed w)
    (hfresh : ∀ id ∈ call.newId, id ∉ w.used) :
    Keyed ⟨(start w.rows call).1, calls, call.newId.toList ++ w.used⟩ := by
  cases call with
  | request nowMs ttlMs createdAt plan j =>
    have hj : j ∉ w.used := hfresh j rfl
    refine ⟨?_, ?_⟩
    · simp only [start, map_append, map_cons, map_nil]
      refine h.nodup.append (nodup_singleton _) ?_
      intro id hid hlast
      obtain ⟨row, hrow, rfl⟩ := mem_map.mp hid
      exact hj (mem_singleton.mp hlast ▸ h.used row hrow)
    · intro row hrow
      rcases mem_append.mp hrow with hold | hlast
      · exact mem_append_right _ (h.used row hold)
      · rw [mem_singleton.mp hlast]
        exact mem_append_left _ (mem_singleton.mpr rfl)
  | approve | reject | consume => exact ⟨h.nodup, h.used⟩
  | purge nowMs =>
    refine ⟨h.nodup.sublist (List.filter_sublist.map _), ?_⟩
    exact fun row hrow => h.used row (mem_filter.mp hrow).1

theorem keyed_exec (h : ExecStep World.exec w event w') (hkeyed : Keyed w) : Keyed w' := by
  rcases exec_cases h with ⟨call, -, hfresh, rfl, -⟩ | ⟨-, rfl, -⟩ | ⟨message, -, rfl, -⟩
  · exact keyed_start _ hkeyed hfresh
  · have hids := ids_resume w.rows (w.calls event.1.1)
    refine ⟨hids ▸ hkeyed.nodup, fun row hrow => ?_⟩
    have hmem : row.id ∈ w.rows.map (·.id) := hids ▸ mem_map_of_mem hrow
    obtain ⟨old, hold, hid⟩ := mem_map.mp hmem
    exact hid ▸ hkeyed.used old hold
  · exact ⟨hkeyed.nodup, hkeyed.used⟩

/-! ## What a call returns -/

/-- No call returns an entry, consumed or rejected, with its first statement. -/
theorem start_response (rows : List (PendingExecution P)) (call : Begin P)
    (input : ℕ × Statement P) :
    consumedId (input, (start rows call).2.2) = none ∧
      rejectedId (input, (start rows call).2.2) = none := by
  have hstarts := start_cases rows call
  revert hstarts
  generalize (start rows call).2.1 = call', (start rows call).2.2 = response
  rintro (_ | _ | _ | _ | _ | ⟨_ | _⟩) <;> exact ⟨rfl, rfl⟩

variable {input : ℕ × Statement P}

/-- The guard of `consume_approved`: the entry it returns was approved just
before, and is consumed now. -/
theorem resume_consumed (hnodup : (rows.map (·.id)).Nodup)
    (h : consumedId (input, (resume rows call).2.2) = some id) :
    (∃ row ∈ rows, row.id = id ∧ row.status = .approved) ∧
      (∃ plan candidate rest, call = .consumeUpdate plan candidate rest ∧ candidate.id = id) ∧
      ∀ row ∈ (resume rows call).1, row.id = id → row.status = .consumed := by
  obtain ⟨hrows, hresumes⟩ := resume_cases rows call
  rw [hrows]
  revert h hresumes
  generalize (resume rows call).2.1 = call', (resume rows call).2.2 = response
  rintro h (_ | _ | _ | _ | _ | _ | ⟨hmem, hid, happroved⟩ | ⟨_ | _⟩) <;> cases h
  rename_i plan candidate rest approved
  refine ⟨⟨approved, hmem, hid, happroved⟩, ⟨plan, candidate, rest, rfl, rfl⟩, ?_⟩
  intro row hrow hrid
  obtain ⟨old, hold, rfl⟩ := mem_map.mp hrow
  -- the id is a key, so `old` is the approved row and met the condition
  have hsame : old = approved := inj_on_of_nodup_map hnodup hold hmem
    ((resumedRow_cases _ old).1.symm.trans (hrid.trans hid.symm))
  rw [hsame, resumedRow, if_pos ⟨hid, happroved⟩]

/-- `reject` returns the entry it rejected. -/
theorem resume_rejected (h : rejectedId (input, (resume rows call).2.2) = some id) :
    call = .rejectRead id := by
  have hresumes := (resume_cases rows call).2
  revert h hresumes
  generalize (resume rows call).2.1 = call', (resume rows call).2.2 = response
  rintro h (_ | _ | _ | _ | _ | _ | _ | ⟨_ | _⟩) <;> cases h
  rfl

/-- A recorded rejection: the entry was in the table and is rejected now. -/
theorem resume_rejectRead (h : (resume rows call).2.1 = .rejectRead id) :
    (∃ row ∈ rows, row.id = id) ∧
      ∀ row ∈ (resume rows call).1, row.id = id → row.status = .rejected := by
  obtain ⟨hrows, hresumes⟩ := resume_cases rows call
  rw [h] at hresumes
  rw [hrows]
  revert hresumes
  generalize (resume rows call).2.2 = response
  rintro (_ | _ | _ | _ | hmem | _ | _ | ⟨⟨⟩⟩)
  rename_i row reason
  refine ⟨⟨row, hmem, rfl⟩, ?_⟩
  intro _ hrow hid
  obtain ⟨old, hold, rfl⟩ := mem_map.mp hrow
  rw [resumedRow, if_pos ((resumedRow_cases _ old).1.symm.trans hid)]

/-! ## Histories -/

/-- What holds after a history without late writes: every entry it returned,
consumed or rejected, is settled, and so is every entry whose rejection is
recorded but not yet returned. -/
structure Accounted (history : List (Event P)) (w : World P) : Prop where
  keyed : Keyed w
  consumed : ∀ event ∈ history, ∀ id, consumedId event = some id → Settled w id
  rejected : ∀ event ∈ history, ∀ id, rejectedId event = some id → Settled w id
  recording : ∀ proc id, w.calls proc = .rejectRead id → Settled w id
  safe : Safe history

omit [DecidableEq P] in
theorem accounted_initial (h : w.Initial) : Accounted [] w where
  keyed := ⟨h.nodup, h.used⟩
  consumed := by simp
  rejected := by simp
  recording := fun proc id hcall => by simp [h.idle proc] at hcall
  safe := .nil

variable (h : ExecStep World.exec w event w')
include h

/-- The entry a statement returns as consumed was not settled before. -/
theorem not_settled_of_consumed (hkeyed : Keyed w) (hid : consumedId event = some id) :
    ¬ Settled w id ∧ Settled w' id := by
  obtain ⟨input, response⟩ := event
  rcases exec_cases h with ⟨call, -, -, -, hr⟩ | ⟨-, rfl, hr⟩ | ⟨message, -, -, hr⟩
  · rw [show response = _ from hr, (start_response w.rows call input).1] at hid
    cases hid
  · rw [show response = _ from hr] at hid
    obtain ⟨⟨row, hrow, hrid, happroved⟩, -, hafter⟩ := resume_consumed hkeyed.nodup hid
    refine ⟨fun hsettled => ?_, hrid ▸ hkeyed.used row hrow, fun r hr hr' => .inr (hafter r hr hr')⟩
    rcases hsettled.2 row hrow hrid with hs | hs <;> simp [happroved] at hs
  · rw [show response = _ from hr] at hid
    cases hid

/-- The entry a statement returns as rejected had its rejection recorded. -/
theorem recording_of_rejected (hid : rejectedId event = some id) :
    w.calls event.1.1 = .rejectRead id := by
  obtain ⟨input, response⟩ := event
  rcases exec_cases h with ⟨call, -, -, -, hr⟩ | ⟨-, -, hr⟩ | ⟨message, -, -, hr⟩
  · rw [show response = _ from hr, (start_response w.rows call input).2] at hid
    cases hid
  · rw [show response = _ from hr] at hid
    exact resume_rejected hid
  · rw [show response = _ from hr] at hid
    cases hid

/-- A rejection recorded by this statement, or before it. -/
theorem recording_exec {proc : ℕ} (hkeyed : Keyed w) (hcall : w'.calls proc = .rejectRead id) :
    w.calls proc = .rejectRead id ∨ Settled w' id := by
  by_cases hproc : proc = event.1.1
  · subst hproc
    rcases exec_cases h with ⟨call, -, -, rfl, -⟩ | ⟨-, rfl, -⟩ | ⟨message, -, rfl, -⟩ <;>
      simp only [Function.update_self] at hcall
    · have hstarts := start_cases w.rows call
      rw [hcall] at hstarts
      cases hstarts with
      | tries htries => cases htries
    · obtain ⟨⟨row, hrow, hrid⟩, hafter⟩ := resume_rejectRead hcall
      exact .inr ⟨hrid ▸ hkeyed.used row hrow, fun r hr hr' => .inl (hafter r hr hr')⟩
    · cases hcall
  · exact .inl (calls_exec h proc hproc ▸ hcall)

theorem accounted_exec {history : List (Event P)} (htimely : TimelyApproval w event)
    (hacc : Accounted history w) :
    Accounted (history ++ [event]) w' where
  keyed := keyed_exec h hacc.keyed
  consumed := by
    intro e he id hid
    rcases mem_append.mp he with hold | hlast
    · exact settled_exec h htimely (hacc.consumed e hold id hid)
    · rw [mem_singleton.mp hlast] at hid
      exact (not_settled_of_consumed h hacc.keyed hid).2
  rejected := by
    intro e he id hid
    rcases mem_append.mp he with hold | hlast
    · exact settled_exec h htimely (hacc.rejected e hold id hid)
    · rw [mem_singleton.mp hlast] at hid
      exact settled_exec h htimely (hacc.recording _ id (recording_of_rejected h hid))
  recording := by
    intro proc id hcall
    rcases recording_exec h hacc.keyed hcall with hbefore | hnow
    · exact settled_exec h htimely (hacc.recording proc id hbefore)
    · exact hnow
  safe := by
    refine pairwise_append.mpr ⟨hacc.safe, pairwise_singleton _ _, ?_⟩
    intro earlier hearlier later hlater hsome
    rw [mem_singleton.mp hlater] at hsome ⊢
    obtain ⟨id, hid⟩ := Option.isSome_iff_exists.mp hsome
    have hopen := (not_settled_of_consumed h hacc.keyed hid).1
    rw [hid]
    exact ⟨fun hc => hopen (hacc.consumed earlier hearlier id hc),
      fun hr => hopen (hacc.rejected earlier hearlier id hr)⟩

omit h

/-- **One approval authorizes at most one call and a rejection is final, in
every history without a late approval.** Whatever statements any number of
processes interleave, as long as no `approve` writes its status onto an
entry that was rejected or consumed since it read it, `consume_approved`
never returns an entry a second time nor after `reject` returned it. -/
theorem safe_of_timely_approvals {w w' : World P} {history : List (Event P)} (hinit : w.Initial)
    (hrun : Run (restrict (ExecStep World.exec) TimelyApproval) w history w') : Safe history :=
  (hrun.traceInvariant (fun _ _ _ _ hacc hstep => accounted_exec hstep.1 hstep.2 hacc)
    (accounted_initial hinit)).safe

/-! ## Two processes that resolve one request -/

instance (w : World P) (event : Event P) : Decidable (TimelyApproval w event) :=
  match hcall : w.calls event.1.1 with
  | .approveWrite id plan =>
    decidable_of_iff (event.1.2 = .resume → ∀ row ∈ w.rows, row.id = id →
        row.status ≠ .rejected ∧ row.status ≠ .consumed) <| by
      simp only [TimelyApproval, hcall, Call.approveWrite.injEq]
      exact ⟨fun h hr j _ hj => hj.1 ▸ h hr, fun h hr => h hr id plan ⟨rfl, rfl⟩⟩
  | .idle | .approveRead _ _ | .rejectWrite _ _ | .rejectRead _ | .consumeUpdate _ _ _ =>
    .isTrue fun _ id plan h => by simp [hcall] at h

/-- An empty database. -/
def emptyWorld (P : Type) : World P := ⟨[], fun _ => .idle, []⟩

theorem emptyWorld_initial (P : Type) : (emptyWorld P).Initial :=
  ⟨nodup_nil, fun _ h => absurd h not_mem_nil, fun _ => rfl⟩

/-- The plan of the source's own tests, with a number for its payload. -/
def samplePlan : ExecutionPlan ℕ := ⟨"conn-a", "alice", "request_execution", .write, 0⟩

/-- A request that is approved, consumed and asked for once more. -/
theorem safe_of_approve_then_consume :
    ∃ w history, Run (restrict (ExecStep World.exec) TimelyApproval) (emptyWorld ℕ) history w ∧
      history.filterMap consumedId = [7] ∧ Safe history := by
  have heval : (runInputs (guardExec World.exec TimelyApproval) (emptyWorld ℕ)
      [(0, .start (.request 0 10 0 samplePlan 7)),
        (1, .start (.approve 1 7)), (1, .resume), (1, .resume),
        (0, .start (.consume 2 samplePlan)), (0, .resume),
        (0, .start (.consume 3 samplePlan))]).map (fun r => r.2.filterMap consumedId)
      = some [7] := by decide
  obtain ⟨⟨w, history⟩, hrun, hids⟩ := Option.map_eq_some_iff.mp heval
  have hrun := run_of_runInputs _ hrun
  rw [execStep_guardExec] at hrun
  exact ⟨w, history, hrun, hids, safe_of_timely_approvals (emptyWorld_initial ℕ) hrun⟩

/-- Two approvers, and an approver and a rejecter, that both read the entry
while it was pending. In the first history the second approver's write
makes the consumed entry approved again; in the second it does so to the
rejected entry. -/
theorem late_approval_revives_entry :
    (∃ w history, Run (ExecStep World.exec) (emptyWorld ℕ) history w ∧
      history.filterMap consumedId = [7, 7] ∧ ¬ Safe history) ∧
    (∃ w history, Run (ExecStep World.exec) (emptyWorld ℕ) history w ∧
      history.filterMap rejectedId = [7] ∧ history.filterMap consumedId = [7] ∧
      ¬ Safe history) := by
  have htwice : (runInputs World.exec (emptyWorld ℕ) [(0, .start (.request 0 10 0 samplePlan 7)),
        (1, .start (.approve 1 7)), (2, .start (.approve 1 7)),
        (1, .resume), (1, .resume),
        (0, .start (.consume 2 samplePlan)), (0, .resume),
        (2, .resume), (2, .resume),
        (0, .start (.consume 3 samplePlan)), (0, .resume)]).map
        (fun r => (r.2.filterMap consumedId, decide (Safe r.2)))
      = some ([7, 7], false) := by decide
  have hrejected : (runInputs World.exec (emptyWorld ℕ) [(0, .start (.request 0 10 0 samplePlan 7)),
        (1, .start (.approve 1 7)), (2, .start (.reject 1 7 none)),
        (2, .resume), (2, .resume),
        (1, .resume), (1, .resume),
        (0, .start (.consume 3 samplePlan)), (0, .resume)]).map
        (fun r => (r.2.filterMap rejectedId, r.2.filterMap consumedId, decide (Safe r.2)))
      = some ([7], [7], false) := by decide
  obtain ⟨⟨w, history⟩, hrun, hids⟩ := Option.map_eq_some_iff.mp htwice
  obtain ⟨⟨w', history'⟩, hrun', hids'⟩ := Option.map_eq_some_iff.mp hrejected
  simp only [Prod.mk.injEq, decide_eq_false_iff_not] at hids hids'
  exact ⟨⟨w, history, run_of_runInputs _ hrun, hids⟩,
    ⟨w', history', run_of_runInputs _ hrun', hids'⟩⟩

end Dbflux.Approval

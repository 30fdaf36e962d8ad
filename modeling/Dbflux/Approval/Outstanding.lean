import Dbflux.Approval.Safety

/-!
# Entries that can still be consumed

An entry can be consumed later when it is pending or approved, or when an `approve`
that read it as pending has yet to write its status. Whatever the statements, no other
entry of the table comes to be consumable, and what `consume_approved` returns is an
entry whose plan matches the plan it was asked for.

Results:
* `outstanding_exec`: a consumable entry was consumable before the statement, or the
  statement requested it.
* `matches_of_consumed`: a returned entry matches the plan of the call.
-/

namespace Dbflux.Approval

open Lib

variable {P : Type}

/-- The entry can still be consumed. -/
def Outstanding (w : World P) (row : PendingExecution P) : Prop :=
  row.status = .pending ∨ row.status = .approved ∨
    ∃ proc plan, w.calls proc = .approveWrite row.id plan

/-- The entry `request_execution` queues. -/
def Statement.requested : Statement P → Option (Uuid × ExecutionPlan P)
  | .start (.request _ _ _ plan id) => some (id, plan)
  | _ => none

variable [DecidableEq P]

variable {rows rest : List (PendingExecution P)} {row candidate : PendingExecution P}
  {plan : ExecutionPlan P} {w w' : World P} {proc : ℕ} {st : Statement P} {r : Option (Response P)}
  {plans : Uuid → Option (ExecutionPlan P)} {call : Begin P}

/-- Every entry of the table was there before, or was requested just now. -/
theorem start_row (hrow : row ∈ (start rows call).1) :
    row ∈ rows ∨ (Statement.start call).requested = some (row.id, row.plan) := by
  cases call with
  | request nowMs ttlMs createdAt plan id =>
    rcases List.mem_append.mp hrow with hold | hnew
    · exact .inl hold
    · rw [List.mem_singleton.mp hnew]
      exact .inr rfl
  | approve | reject | consume => exact .inl hrow
  | purge nowMs => exact Or.inl (List.mem_filter.mp hrow).1

/-- An entry of the table after a statement that can still be consumed was there before
and could be consumed, or the statement requested it. -/
theorem outstanding_exec (hkeyed : Keyed w) (h : w.exec (proc, st) = some (w', r))
    (hrow : row ∈ w'.rows) (hout : Outstanding w' row) :
    (∃ old ∈ w.rows, old.id = row.id ∧ old.plan = row.plan ∧ Outstanding w old) ∨
      st.requested = some (row.id, row.plan) := by
  -- a call that waits to approve was waiting before, unless `proc` just came to wait
  have hwait : ∀ call' : Call P,
      (∃ q plan, Function.update w.calls proc call' q = .approveWrite row.id plan) →
        (∃ q plan, w.calls q = .approveWrite row.id plan) ∨
          ∃ plan, call' = .approveWrite row.id plan := by
    rintro call' ⟨q, plan, hq⟩
    rw [Function.update_apply] at hq
    split_ifs at hq
    · exact Or.inr ⟨plan, hq⟩
    · exact Or.inl ⟨q, plan, hq⟩
  simp only [Outstanding, ← or_assoc] at hout ⊢
  rcases exec_cases h with ⟨call, rfl, -, rfl, -⟩ | ⟨rfl, rfl, -⟩ | ⟨message, rfl, rfl, -⟩
  · rcases start_row hrow with hold | hnew
    · refine .inl ⟨row, hold, rfl, rfl, ?_⟩
      rcases hout with hopen | hq
      · exact .inl hopen
      · rcases hwait _ hq with hbefore | ⟨plan, hnow⟩
        · exact .inr hbefore
        · -- only a call that just read the entry as pending will approve it
          have hstarts := start_cases w.rows call
          rw [hnow] at hstarts
          generalize (start w.rows call).2.2 = response at hstarts
          generalize hid : row.id = id at hstarts
          obtain _ | _ | _ | ⟨hfound, hpending⟩ | _ | ⟨⟨⟩⟩ := hstarts
          have hsame := List.inj_on_of_nodup_map hkeyed.nodup hfound hold hid.symm
          exact .inl (.inl (hsame ▸ hpending))
    · exact .inr hnew
  · obtain ⟨old, hold, rfl⟩ := resume_row hrow
    obtain ⟨hid, hplan, hstatus⟩ := resumedRow_cases (w.calls proc) old
    refine .inl ⟨old, hold, hid.symm, hplan.symm, ?_⟩
    rcases hout with hopen | hq
    · rcases hstatus with heq | hr | hc | ⟨plan, hcall⟩
      · exact .inl (heq ▸ hopen)
      · simp [hr] at hopen
      · simp [hc] at hopen
      · exact .inr ⟨proc, plan, hcall⟩
    · rcases hwait _ hq with hbefore | ⟨plan, hnow⟩
      · exact .inr (hid ▸ hbefore)
      · have hresumes := (resume_cases w.rows (w.calls proc)).2
        rw [hnow] at hresumes
        generalize w.calls proc = before at hresumes
        cases hresumes with
        | tries htries => cases htries
  · refine .inl ⟨row, hrow, rfl, rfl, ?_⟩
    exact hout.imp_right fun hq => (hwait _ hq).resolve_right fun ⟨_, hnow⟩ => by cases hnow

/-! ## Plans -/

/-- The table and the candidates of the calls hold the plans the entries were requested
with, and the next candidate of a call matches its plan. -/
structure Planned (plans : Uuid → Option (ExecutionPlan P)) (w : World P) : Prop where
  rows : ∀ row ∈ w.rows, plans row.id = some row.plan
  candidates : ∀ proc plan candidate rest, w.calls proc = .consumeUpdate plan candidate rest →
    approvalMatchesPlan candidate.plan plan = true ∧
      ∀ row ∈ candidate :: rest, plans row.id = some row.plan

/-- Plans that are recorded besides. -/
theorem Planned.mono {plans' : Uuid → Option (ExecutionPlan P)} (h : Planned plans w)
    (hle : ∀ id plan, plans id = some plan → plans' id = some plan) :
    Planned plans' w := by
  refine ⟨fun row hrow => hle _ _ (h.rows row hrow), fun proc plan candidate rest hc => ?_⟩
  obtain ⟨hmatch, hrows⟩ := h.candidates proc plan candidate rest hc
  exact ⟨hmatch, fun row hrow => hle _ _ (hrows row hrow)⟩

theorem resume_consumeUpdate {call : Call P}
    (h : (resume rows call).2.1 = .consumeUpdate plan candidate rest) :
    (resume rows call).2.2 = none ∧ ∃ tried others, call = .consumeUpdate plan tried others ∧
      approvalMatchesPlan candidate.plan plan = true ∧ ∀ row ∈ candidate :: rest, row ∈ others := by
  have hresumes := (resume_cases rows call).2
  rw [h] at hresumes
  generalize (resume rows call).2.2 = response at hresumes ⊢
  obtain _ | _ | _ | _ | _ | _ | _ | ⟨_ | ⟨hmatch, hmem⟩⟩ := hresumes
  exact ⟨rfl, _, _, rfl, hmatch, hmem⟩

theorem start_consumeUpdate (h : (start rows call).2.1 = .consumeUpdate plan candidate rest) :
    (start rows call).2.2 = none ∧ ∃ now, call = .consume now plan ∧
      approvalMatchesPlan candidate.plan plan = true ∧ ∀ row ∈ candidate :: rest, row ∈ rows := by
  have hstarts := start_cases rows call
  rw [h] at hstarts
  generalize (start rows call).2.2 = response at hstarts ⊢
  obtain _ | _ | _ | _ | _ | ⟨_ | ⟨hmatch, hmem⟩⟩ := hstarts
  exact ⟨rfl, _, rfl, hmatch, hmem⟩

variable (h : w.exec (proc, st) = some (w', r))
include h

theorem used_exec : ∀ id ∈ w.used, id ∈ w'.used := by
  intro id hid
  rcases exec_cases h with ⟨call, -, -, rfl, -⟩ | ⟨-, rfl, -⟩ | ⟨message, -, rfl, -⟩
  · exact List.mem_append_right _ hid
  · exact hid
  · exact hid

/-- A call in `consume_approved` has not returned, and was asked for its plan when it
started. -/
theorem consumeUpdate_exec (hcall : w'.calls proc = .consumeUpdate plan candidate rest) :
    r = none ∧ ((∃ now, st = .start (.consume now plan)) ∨
      st = .resume ∧ ∃ tried others, w.calls proc = .consumeUpdate plan tried others) := by
  rcases exec_cases h with ⟨call, rfl, -, rfl, rfl⟩ | ⟨rfl, rfl, rfl⟩ | ⟨message, -, rfl, -⟩
  · obtain ⟨hnone, now, rfl, -⟩ :=
      start_consumeUpdate ((Function.update_self proc _ w.calls).symm.trans hcall)
    exact ⟨hnone, Or.inl ⟨now, rfl⟩⟩
  · obtain ⟨hnone, tried, others, hbefore, -⟩ :=
      resume_consumeUpdate ((Function.update_self proc _ w.calls).symm.trans hcall)
    exact ⟨hnone, Or.inr ⟨rfl, tried, others, hbefore⟩⟩
  · cases (Function.update_self proc _ w.calls).symm.trans hcall

omit h

theorem planned_exec (hplanned : Planned plans w) (h : w.exec (proc, st) = some (w', r))
    (hnew : ∀ id plan, st.requested = some (id, plan) → plans id = some plan) :
    Planned plans w' := by
  -- the candidates of the other calls are as before
  have hcalls : ∀ call' : Call P, (∀ plan candidate rest,
      call' = .consumeUpdate plan candidate rest → approvalMatchesPlan candidate.plan plan = true ∧
        ∀ row ∈ candidate :: rest, plans row.id = some row.plan) →
      ∀ q plan candidate rest,
        Function.update w.calls proc call' q = .consumeUpdate plan candidate rest →
          approvalMatchesPlan candidate.plan plan = true ∧
            ∀ row ∈ candidate :: rest, plans row.id = some row.plan := by
    intro call' hcall q plan candidate rest hq
    rw [Function.update_apply] at hq
    split_ifs at hq
    · exact hcall plan candidate rest hq
    · exact hplanned.candidates q plan candidate rest hq
  rcases exec_cases h with ⟨call, rfl, -, rfl, -⟩ | ⟨rfl, rfl, -⟩ | ⟨message, rfl, rfl, -⟩
  · refine ⟨fun row hrow => ?_, hcalls _ fun plan candidate rest hc => ?_⟩
    · rcases start_row hrow with hold | hreq
      · exact hplanned.rows row hold
      · exact hnew _ _ hreq
    · obtain ⟨-, now, rfl, hmatch, hmem⟩ := start_consumeUpdate hc
      exact ⟨hmatch, fun row hrow => hplanned.rows row (hmem row hrow)⟩
  · refine ⟨fun row hrow => ?_, hcalls _ fun plan candidate rest hc => ?_⟩
    · obtain ⟨old, hold, rfl⟩ := resume_row hrow
      obtain ⟨hid, hplan, -⟩ := resumedRow_cases (w.calls proc) old
      rw [hid, hplan]
      exact hplanned.rows old hold
    · obtain ⟨-, tried, others, hcall, hmatch, hmem⟩ := resume_consumeUpdate hc
      exact ⟨hmatch, fun row hrow => (hplanned.candidates proc plan tried others hcall).2 row
        (List.mem_cons_of_mem _ (hmem row hrow))⟩
  · exact ⟨hplanned.rows, hcalls .idle (fun _ _ _ hc => by cases hc)⟩

/-- The entry `consume_approved` returns is in the table, approved, and matches the plan
of the call. -/
theorem matches_of_consumed {pending : PendingExecution P} (hkeyed : Keyed w)
    (hplanned : Planned plans w)
    (h : w.exec (proc, st) = some (w', some (.consumed (some pending)))) :
    ∃ plan candidate rest, w.calls proc = .consumeUpdate plan candidate rest ∧
      ∃ row ∈ w.rows, row.id = pending.id ∧ row.status = .approved ∧
        approvalMatchesPlan row.plan plan = true := by
  rcases exec_cases h with ⟨call, -, -, -, hr⟩ | ⟨rfl, -, hr⟩ | ⟨message, -, -, hr⟩
  · have hnone := (start_response w.rows call (proc, .start call)).1
    rw [← hr] at hnone
    cases hnone
  · have hconsumed : consumedId ((proc, .resume),
        (resume w.rows (w.calls proc)).2.2) = some pending.id := by rw [← hr]; rfl
    obtain ⟨⟨row, hrow, hid, hstatus⟩, ⟨plan, candidate, rest, hcall, hsame⟩, -⟩ :=
      resume_consumed hkeyed.nodup hconsumed
    obtain ⟨hmatch, hplans⟩ := hplanned.candidates proc plan candidate rest hcall
    have hplan : row.plan = candidate.plan := by
      have hrowPlan := hplanned.rows row hrow
      have hcandidate := hplans candidate List.mem_cons_self
      rw [hid, ← hsame, hcandidate] at hrowPlan
      exact (Option.some.inj hrowPlan).symm
    exact ⟨plan, candidate, rest, hcall, row, hrow, hid, hstatus, hplan ▸ hmatch⟩
  · cases hr

end Dbflux.Approval

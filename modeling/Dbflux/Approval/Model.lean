import Dbflux.Lib.Text

/-!
# The approval queue and its SQLite store

`ApprovalService` (`dbflux_approval/src/service.rs`) over
`SqlitePendingExecutionStore` (`dbflux_storage/src/pending_executions.rs`).
Any number of processes share the table. A call is a sequence of SQL
statements; each statement is atomic, and between two statements of one call
any statement of another may run. The world is the table together with the
point each process has reached in its call.

The JSON text of a column is identified with the value it stands for, so a
row is a `PendingExecution`.
-/

namespace Dbflux.Approval

open Lib

/-- `uuid::Uuid`. -/
abbrev Uuid := BitVec 128

/-- `ExecutionClassification` (`dbflux_policy/src/classification.rs`). -/
inductive ExecutionClassification where
  | metadata
  | read
  | write
  | destructive
  | admin
  | adminSafe
  | adminDestructive
  deriving DecidableEq, Repr

/-- `PendingStatus` (`store.rs`, lines 15–24). -/
inductive PendingStatus where
  | pending
  | approved
  | rejected
  | consumed
  deriving DecidableEq, Repr

/-- `ExecutionPlan` (`store.rs`, lines 6–13), over any type of payloads. -/
structure ExecutionPlan (P : Type) where
  connectionId : String
  actorId : String
  toolId : String
  classification : ExecutionClassification
  payload : P
  deriving DecidableEq, Repr

/-- `PendingExecution` (`store.rs`, lines 26–36). Times are milliseconds. -/
structure PendingExecution (P : Type) where
  id : Uuid
  status : PendingStatus
  plan : ExecutionPlan P
  createdAt : ℤ
  expiresAt : Option ℤ
  rejectionReason : Option Text
  deriving DecidableEq, Repr

/-- `PendingStoreError` (`store.rs`). Rows are decoded values here, so the
`Serialization` variant has no source. -/
inductive PendingStoreError where
  | backend (message : String)
  deriving DecidableEq, Repr

/-- `ApprovalError` (`service.rs`, lines 52–60). -/
inductive ApprovalError where
  | pendingNotFound (id : Uuid)
  | invalidTransition (id : Uuid)
  | store (error : PendingStoreError)
  deriving DecidableEq, Repr

/-- `MAX_REJECTION_REASON_CHARS`. -/
def maxRejectionReasonChars : ℕ := 500

/-- `normalize_rejection_reason` (`service.rs`, lines 18–33). -/
def normalizeRejectionReason : Option Text → Option Text
  | none => none
  | some reason =>
    let trimmed := trim reason
    if trimmed.isEmpty then none else some (trimEnd (trimmed.take maxRejectionReasonChars))

variable {P : Type} [DecidableEq P]

/-- `approval_matches_plan` (`store.rs`). The classification is not compared. -/
def approvalMatchesPlan (approved plan : ExecutionPlan P) : Bool :=
  decide (approved.actorId = plan.actorId) && decide (approved.connectionId = plan.connectionId) &&
    decide (approved.toolId = plan.toolId) && decide (approved.payload = plan.payload)

/-! ## The SQL statements -/

/-- `expires_at IS NULL OR expires_at > now`. -/
def unexpired (now : ℤ) (row : PendingExecution P) : Bool :=
  row.expiresAt.elim true fun expires => decide (expires > now)

/-- The `SELECT` of `get_pending`. -/
def selectPending (rows : List (PendingExecution P)) (id : Uuid) (now : ℤ) :
    Option (PendingExecution P) :=
  rows.find? fun row => decide (row.id = id) && decide (row.status = .pending) && unexpired now row

/-- `SELECT … WHERE id = ?1`. -/
def selectById (rows : List (PendingExecution P)) (id : Uuid) : Option (PendingExecution P) :=
  rows.find? fun row => decide (row.id = id)

/-- The `SELECT … ORDER BY created_at` of `consume_approved`. -/
def selectApproved (rows : List (PendingExecution P)) (plan : ExecutionPlan P) (now : ℤ) :
    List (PendingExecution P) :=
  (rows.filter fun row =>
    decide (row.status = .approved) && decide (row.plan.actorId = plan.actorId) &&
      decide (row.plan.connectionId = plan.connectionId) &&
      decide (row.plan.toolId = plan.toolId) && unexpired now row).insertionSort
    fun a b => a.createdAt ≤ b.createdAt

/-- `UPDATE app_pending_executions SET … WHERE …`: the number of changed rows
and the table after it. -/
def updateWhere (rows : List (PendingExecution P)) (cond : PendingExecution P → Bool)
    (set : PendingExecution P → PendingExecution P) : ℕ × List (PendingExecution P) :=
  (rows.countP cond, rows.map fun row => if cond row then set row else row)

/-- The `UPDATE` of `update_status`: `SET status = ?1 WHERE id = ?2`. -/
def updateStatus (rows : List (PendingExecution P)) (id : Uuid) (status : PendingStatus) :
    ℕ × List (PendingExecution P) :=
  updateWhere rows (fun row => decide (row.id = id)) fun row => { row with status := status }

/-- The `UPDATE` of `record_rejection`: `SET status = 'rejected',
rejection_reason = ?1 WHERE id = ?2`. -/
def updateRejected (rows : List (PendingExecution P)) (id : Uuid) (reason : Option Text) :
    ℕ × List (PendingExecution P) :=
  updateWhere rows (fun row => decide (row.id = id)) fun row =>
    { row with status := .rejected, rejectionReason := reason }

/-- The `UPDATE` of `consume_approved`: `SET status = 'consumed' WHERE id = ?1
AND status = 'approved'`. -/
def updateConsumed (rows : List (PendingExecution P)) (id : Uuid) :
    ℕ × List (PendingExecution P) :=
  updateWhere rows (fun row => decide (row.id = id) && decide (row.status = .approved)) fun row =>
    { row with status := .consumed }

/-- The condition of the `DELETE` of `purge_terminal_and_expired`. -/
def purged (now : ℤ) (row : PendingExecution P) : Bool :=
  decide (row.status = .rejected) || decide (row.status = .consumed) ||
    row.expiresAt.elim false fun expires => decide (expires ≤ now)

/-! ## Calls -/

/-- How far a process is in its call: which statement it runs next. -/
inductive Call (P : Type) where
  | idle
  /-- `approve` has read the entry and will write its status. -/
  | approveWrite (id : Uuid) (replayPlan : ExecutionPlan P)
  /-- `approve` has written the status and will read the entry back. -/
  | approveRead (id : Uuid) (replayPlan : ExecutionPlan P)
  /-- `reject` has read the entry and will record the rejection. -/
  | rejectWrite (id : Uuid) (reason : Option Text)
  /-- `reject` has recorded the rejection and will read the entry back. -/
  | rejectRead (id : Uuid)
  /-- `consume_approved` will try the guarded update of `candidate`. -/
  | consumeUpdate (plan : ExecutionPlan P) (candidate : PendingExecution P)
      (rest : List (PendingExecution P))
  deriving DecidableEq, Repr

/-- What a call returned to its caller. -/
inductive Response (P : Type) where
  | requested (pending : PendingExecution P)
  | approved (pending : PendingExecution P) (replayPlan : ExecutionPlan P)
  | rejected (pending : PendingExecution P)
  | consumed (pending : Option (PendingExecution P))
  | purged (rowsDeleted : ℕ)
  | failed (error : ApprovalError)
  deriving DecidableEq, Repr

/-- The first statement of a call. The clock readings are free, since the
clocks of the processes need not agree. -/
inductive Begin (P : Type) where
  | request (nowMs ttlMs createdAt : ℤ) (plan : ExecutionPlan P) (id : Uuid)
  | approve (now : ℤ) (id : Uuid)
  | reject (now : ℤ) (id : Uuid) (reason : Option Text)
  | consume (now : ℤ) (plan : ExecutionPlan P)
  | purge (nowMs : ℤ)
  deriving DecidableEq, Repr

/-- The id `create_pending` draws with `Uuid::new_v4`. -/
def Begin.newId : Begin P → Option Uuid
  | .request _ _ _ _ id => some id
  | _ => none

/-- One statement of one process: the first or the next of a call, or one the
database refuses, which ends the call. -/
inductive Statement (P : Type) where
  | start (call : Begin P)
  | resume
  | fail (message : String)
  deriving DecidableEq, Repr

/-- The candidate loop of `consume_approved` up to its next `UPDATE`. -/
def nextCandidate (plan : ExecutionPlan P) (candidates : List (PendingExecution P)) :
    Call P × Option (Response P) :=
  match candidates.dropWhile fun candidate => !approvalMatchesPlan candidate.plan plan with
  | [] => (.idle, some (.consumed none))
  | candidate :: rest => (.consumeUpdate plan candidate rest, none)

/-- What `approve` and `reject` make of the entry `get_pending` gave them: go
on to `next`, or return an error (`service.rs`, lines 125–132 and 153–160). -/
def checkPending (id : Uuid) (found : Option (PendingExecution P))
    (next : PendingExecution P → Call P) : Call P × Option (Response P) :=
  match found with
  | none => (.idle, some (.failed (.pendingNotFound id)))
  | some pending =>
    if pending.status ≠ .pending then (.idle, some (.failed (.invalidTransition id)))
    else (next pending, none)

/-- The first statement of a call: the table after it, where the call is then
and what it returned. -/
def start (rows : List (PendingExecution P)) :
    Begin P → List (PendingExecution P) × Call P × Option (Response P)
  | .request nowMs ttlMs createdAt plan id =>
    let pending : PendingExecution P :=
      ⟨id, .pending, plan, createdAt, some (nowMs + ttlMs), none⟩
    (rows ++ [pending], .idle, some (.requested pending))
  | .approve now id =>
    (rows, checkPending id (selectPending rows id now) fun pending =>
      .approveWrite id pending.plan)
  | .reject now id reason =>
    (rows, checkPending id (selectPending rows id now) fun _ =>
      .rejectWrite id (normalizeRejectionReason reason))
  | .consume now plan => (rows, nextCandidate plan (selectApproved rows plan now))
  | .purge nowMs =>
    (rows.filter fun row => !purged nowMs row, .idle, some (.purged (rows.countP (purged nowMs))))

/-- The next statement of a call. -/
def resume (rows : List (PendingExecution P)) :
    Call P → List (PendingExecution P) × Call P × Option (Response P)
  | .idle => (rows, .idle, none)
  | .approveWrite id replayPlan =>
    let (rowsChanged, rows') := updateStatus rows id .approved
    if rowsChanged = 0 then (rows', .idle, some (.failed (.pendingNotFound id)))
    else (rows', .approveRead id replayPlan, none)
  | .approveRead id replayPlan =>
    match selectById rows id with
    | none => (rows, .idle, some (.failed (.store (.backend "Query returned no rows"))))
    | some updated => (rows, .idle, some (.approved updated replayPlan))
  | .rejectWrite id reason =>
    let (rowsChanged, rows') := updateRejected rows id reason
    if rowsChanged = 0 then (rows', .idle, some (.failed (.pendingNotFound id)))
    else (rows', .rejectRead id, none)
  | .rejectRead id =>
    match selectById rows id with
    | none => (rows, .idle, some (.failed (.pendingNotFound id)))
    | some updated => (rows, .idle, some (.rejected updated))
  | .consumeUpdate plan candidate rest =>
    let (rowsChanged, rows') := updateConsumed rows candidate.id
    if rowsChanged = 1 then
      (rows', .idle, some (.consumed (some { candidate with status := .consumed })))
    else (rows', nextCandidate plan rest)

/-! ## The shared database -/

/-- The shared table, the calls in progress and the ids handed out so far. -/
structure World (P : Type) where
  rows : List (PendingExecution P)
  calls : ℕ → Call P
  used : List Uuid

namespace World

/-- The world after process `proc` ran a statement. -/
def after (w : World P) (proc : ℕ)
    (result : List (PendingExecution P) × Call P × Option (Response P)) :
    World P × Option (Response P) :=
  ({ w with rows := result.1, calls := Function.update w.calls proc result.2.1 }, result.2.2)

/-- One statement of one process. A call starts only on an idle process and
resumes only a call in progress. That `Uuid::new_v4` never repeats an id is
assumed here. -/
def exec (w : World P) : ℕ × Statement P → Option (World P × Option (Response P))
  | (proc, .start call) =>
    if w.calls proc = .idle ∧ call.newId.all (fun id => decide (id ∉ w.used)) then
      some ({ w with used := call.newId.toList ++ w.used }.after proc (start w.rows call))
    else none
  | (proc, .resume) =>
    if w.calls proc = .idle then none
    else some (w.after proc (resume w.rows (w.calls proc)))
  | (proc, .fail message) =>
    some (w.after proc (w.rows, .idle, some (.failed (.store (.backend message)))))

/-- A database of a fresh start: ids are the primary key, every id in the
table was handed out, and no call is in progress. -/
structure Initial (w : World P) : Prop where
  nodup : (w.rows.map (·.id)).Nodup
  used : ∀ row ∈ w.rows, row.id ∈ w.used
  idle : ∀ proc, w.calls proc = .idle

end World

end Dbflux.Approval

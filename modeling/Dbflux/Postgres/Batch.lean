import Dbflux.Postgres.TransactionControl

/-!
# Batches of a row-limited PostgreSQL request

A batch is run in one of two ways. `simpleBatch` sends it as one message of
the simple protocol, whose statements the server runs in order; outside a
user's block they share an implicit one. `executeBoundedBatch` sends the
statements one by one and stands in for the implicit block with a block of the
driver's own (`dbflux_driver_postgres/src/driver.rs`, lines 5713–5951).
Both end a failed batch with `recover_from_failed_batch` (lines 5171–5192).

The server is a parameter: `D` is what is committed, `T` what a transaction
sees, and the effect of a statement is a partial function on them that gives
nothing when the server rejects the statement.
-/

namespace Dbflux.Postgres

open Lib

/-- What a `COMMIT`, `END`, `ROLLBACK` or `ABORT` does with the block. -/
inductive Closing where
  | commit
  | rollback
  deriving DecidableEq, Repr

/-- What a statement does once it runs, and the part of PostgreSQL's behaviour
that is assumed: the driver's own `BEGIN`, `COMMIT` and `ROLLBACK` are what
they say, and a `BEGIN` without modes that is accepted changes nothing but
the kind of block. -/
structure Server (D T : Type) where
  /-- What a new transaction sees. -/
  start : D → T
  /-- The effect inside a transaction. -/
  run : Text → D → T → Option T
  /-- `COMMIT`, which a deferred constraint may refuse. -/
  commit : D → T → Option D
  /-- How the server reads a closing statement. -/
  closing : Text → Option Closing
  /-- A statement that needs a user's block. -/
  explicit : Text → D → T → Option (D × T)
  /-- `PREPARE TRANSACTION`. -/
  prepare : Text → D → T → Option D
  begin_run : ∀ db t, run "BEGIN".toList db t = some t
  commit_closing : closing "COMMIT".toList = some .commit
  rollback_closing : closing "ROLLBACK".toList = some .rollback
  plainBegin_run : ∀ text db t t', isPlainBegin text → run text db t = some t' → t' = t

/-- The block a session is in. `implicit` lasts at most to the end of its
message. -/
inductive Block (T : Type) where
  | none
  | implicit (t : T)
  | user (t : T)
  | aborted
  deriving DecidableEq, Repr

/-- A session: what is committed and the block it is in. -/
structure Session (D T : Type) where
  db : D
  block : Block T
  deriving DecidableEq, Repr

/-- Why a statement failed: SQLSTATE 25P02, 57014 or another one. -/
inductive Rejection where
  | inFailedTransaction
  | queryCanceled
  | other
  deriving DecidableEq, Repr

variable {D T : Type} (unicode : UnicodeTable) (server : Server D T)

namespace Session

/-- An error rolls an implicit block back and aborts a user's. -/
def reject (s : Session D T) : Session D T :=
  match s.block with
  | .none | .implicit _ => { s with block := .none }
  | .user _ | .aborted => { s with block := .aborted }

/-- What the statements of the current block have done so far. -/
def view (s : Session D T) : T :=
  match s.block with
  | .implicit t | .user t => t
  | .none | .aborted => server.start s.db

/-- The block after a statement that leaves it open. -/
def withView (s : Session D T) (t : T) : Session D T :=
  match s.block with
  | .user _ => { s with block := .user t }
  | _ => { s with block := .implicit t }

/-- The session after `result`, or the failure of the statement. -/
def orReject (s : Session D T) {α : Type} (result : Option α) (next : α → Session D T) :
    Session D T × Option Rejection :=
  match result with
  | some a => (next a, .none)
  | .none => (s.reject, some .other)

/-- A closing statement in a block that is not aborted. A commit that is
refused ends the transaction all the same. -/
def close (s : Session D T) (text : Text) : Session D T × Option Rejection :=
  match server.closing text with
  | .none => (s.reject, some .other)
  | some .rollback => ({ s with block := .none }, .none)
  | some .commit =>
    match s.block with
    | .implicit t | .user t =>
      match server.commit s.db t with
      | some db => (⟨db, .none⟩, .none)
      | .none => ({ s with block := .none }, some .other)
    | _ => (s, .none)

/-- One statement of a message. In an aborted block only a closing statement
runs. -/
def statement (s : Session D T) (text : Text) : Session D T × Option Rejection :=
  match s.block, classifyTransactionControl unicode text with
  | .aborted, .close =>
    if (server.closing text).isSome then ({ s with block := .none }, .none)
    else (s, some .inFailedTransaction)
  | .aborted, _ => (s, some .inFailedTransaction)
  | _, .none => s.orReject (server.run text s.db (s.view server)) s.withView
  | _, .open =>
    s.orReject (server.run text s.db (s.view server)) fun t => { s with block := .user t }
  | _, .close => s.close server text
  | .user t, .requiresExplicitBlock =>
    s.orReject (server.explicit text s.db t) fun r => ⟨r.1, .user r.2⟩
  | .user t, .prepareTransaction =>
    s.orReject (server.prepare text s.db t) fun db => ⟨db, .none⟩
  | _, _ => (s.reject, some .other)

/-- The end of a message commits its implicit block. -/
def endMessage (s : Session D T) : Session D T × Option Rejection :=
  match s.block with
  | .implicit t =>
    match server.commit s.db t with
    | some db => (⟨db, .none⟩, .none)
    | .none => ({ s with block := .none }, some .other)
  | _ => (s, .none)

/-- The statements of one message, up to the first that fails: its number
counted from `index`, and why. The end of the message counts as one more. -/
def message : ℕ → Session D T → List Text → Session D T × Option (ℕ × Rejection)
  | index, s, [] =>
    match s.endMessage server with
    | (s, rejection) => (s, rejection.map (index, ·))
  | index, s, text :: rest =>
    match s.statement unicode server text with
    | (s, .none) => message (index + 1) s rest
    | (s, some rejection) => (s, some (index, rejection))

/-- A message of one statement. -/
def execute (s : Session D T) (text : Text) : Session D T × Option Rejection :=
  match s.message unicode server 0 [text] with
  | (s, failure) => (s, failure.map (·.2))

end Session

/-! ## The driver -/

/-- `BatchBlock` (lines 5715–5722). -/
inductive BatchBlock where
  | none
  | implicit
  | explicit
  deriving DecidableEq, Repr

/-- `TransactionStateNote`. -/
inductive TransactionStateNote where
  | aborted
  | rolledBack
  deriving DecidableEq, Repr

/-- What the caller learns of a batch: that it ran, the statement it stopped
at, or that it was cancelled. -/
inductive Outcome where
  | completed
  | failed (index : ℕ) (note : Option TransactionStateNote)
  | cancelled
  deriving DecidableEq, Repr

/-- `block_after_statement` (lines 5827–5833). -/
def blockAfterStatement (block : BatchBlock) : TransactionControl → BatchBlock
  | .open => .explicit
  | .close => .none
  | _ => block

/-- The loop of `plan_bounded_batch` (lines 5797–5825). -/
def planBoundedBatch (initialBlock : BatchBlock) : List TransactionControl → Except Text (List Bool)
  | [] => .ok []
  | control :: controls =>
    let opens := control = .none ∧ initialBlock = .none
    let block := if opens then .implicit else initialBlock
    if control = .prepareTransaction then
      .error ("PostgreSQL: PREPARE TRANSACTION cannot run in a row-limited batch; " ++
        "rejected before execution").toList
    else if control = .requiresExplicitBlock ∧ block = .implicit then
      .error ("PostgreSQL: a row-limited batch cannot run SAVEPOINT, RELEASE, ROLLBACK TO or a " ++
        "chained COMMIT/ROLLBACK after statements outside an explicit transaction; " ++
        "rejected before execution").toList
    else (planBoundedBatch (blockAfterStatement block control) controls).map (decide opens :: ·)

/-- `recover_from_failed_batch` (lines 5171–5192) for the script's statements:
the session after it and the note of the error. The probe of
`session_in_aborted_transaction` reads whether the block is aborted. -/
def recoverFromFailedBatch (script : List Text) (s : Session D T) (rejection : Rejection) :
    Session D T × Option TransactionStateNote :=
  match s.block with
  | .aborted =>
    if rejection = .inFailedTransaction ∨ ¬ scriptOpensTransaction script then (s, some .aborted)
    else
      match s.execute unicode server "ROLLBACK".toList with
      | (s, .none) => (s, some .rolledBack)
      | (s, some _) => (s, some .aborted)
  | _ => (s, .none)

/-- The failure of statement `index`, recovered from. -/
def failedBatch (script : List Text) (index : ℕ) (s : Session D T) (rejection : Rejection) :
    Session D T × Outcome :=
  match recoverFromFailedBatch unicode server script s rejection with
  | (s, note) => (s, .failed index note)

/-- The batch as one simple-protocol message, recovered from if it fails. -/
def simpleBatch (script : List Text) (index : ℕ) (s : Session D T) (texts : List Text) :
    Session D T × Outcome :=
  match s.message unicode server index texts with
  | (s, .none) => (s, .completed)
  | (s, some (index, rejection)) => failedBatch unicode server script index s rejection

/-- `rollback_implicit_block` (lines 5835–5842): a failure is only logged. -/
def rollbackImplicitBlock (s : Session D T) (block : BatchBlock) : Session D T :=
  if block = .implicit then (s.execute unicode server "ROLLBACK".toList).1 else s

/-- The statement loop of `execute_bounded_batch` (lines 5879–5935). `cancelled`
says what the flag reads before each statement. -/
def runBoundedBatch (script : List Text) (cancelled : ℕ → Bool) :
    ℕ → Session D T → BatchBlock → List (Text × Bool) → Session D T × Outcome
  | index, s, block, [] =>
    if block = .implicit then
      match s.execute unicode server "COMMIT".toList with
      | (s, .none) => (s, .completed)
      | (s, some rejection) => failedBatch unicode server script index s rejection
    else (s, .completed)
  | index, s, block, (text, opens) :: rest =>
    let control := classifyTransactionControl unicode text
    if cancelled index then (rollbackImplicitBlock unicode server s block, .cancelled)
    else if control = .open ∧ block = .implicit ∧ isPlainBegin text then
      -- The driver's block becomes the user's without a word to the server.
      runBoundedBatch script cancelled (index + 1) s .explicit rest
    else
      match if opens then s.execute unicode server "BEGIN".toList else (s, .none) with
      | (s, some rejection) => failedBatch unicode server script index s rejection
      | (s, .none) =>
        let block := if opens then .implicit else block
        match s.execute unicode server text with
        | (s, .none) =>
          runBoundedBatch script cancelled (index + 1) s (blockAfterStatement block control) rest
        | (s, some rejection) =>
          let s := rollbackImplicitBlock unicode server s block
          if rejection = .queryCanceled then (s, .cancelled)
          else failedBatch unicode server script index s rejection

/-- `execute_bounded_batch` (lines 5854–5951): the plan, then the loop. -/
def executeBoundedBatch (script : List Text) (cancelled : ℕ → Bool) (initialBlock : BatchBlock)
    (s : Session D T) (texts : List Text) : Except Text (Session D T × Outcome) :=
  (planBoundedBatch initialBlock (texts.map (classifyTransactionControl unicode))).map fun plan =>
    runBoundedBatch unicode server script cancelled 0 s initialBlock (texts.zip plan)

end Dbflux.Postgres

import Dbflux.Lib.Text
import Dbflux.Sql.TransactionControl

/-!
# The execution session of an editor document

`ExecutionSessionBinding` (`dbflux_ui_document/src/code/execution_session.rs`).
Any number of threads call `execute`, `invalidate` and `close_invalidated` on
one binding. The generation is an atomic counter; the slot is a mutex that
`execute` holds from its lock to its return. A call is a sequence of steps: a
load of the generation, the acquisition of the slot together with the
decisions made from it, and each call into the driver. Between two steps of
one call any step of another call may run, except that the slot has one holder.

A connection and a session are named by numbers, which stand for their
allocations: a `Weak` keeps its allocation, so `Arc::ptr_eq` of an upgraded
`bound_root` and the caller's `root` compares those numbers, and the upgrade
succeeds when they are equal because the caller holds the connection.
-/

namespace Dbflux.Session

open Lib Sql

/-- `DbError`: `query_failed` of the binding, or an error of the driver by its text. -/
inductive DbError where
  | queryFailed (message : Text)
  | driver (display : Text)
  deriving DecidableEq, Repr

/-- The `Display` text of an error (`#[error("{0}")]` for `QueryFailed`). -/
def DbError.display : DbError → Text
  | .queryFailed message => message
  | .driver display => display

/-- `SessionSlot::Ready` (lines 17–22). -/
structure Ready where
  generation : ℕ
  root : ℕ
  database : Option Text
  session : ℕ
  deriving DecidableEq, Repr

/-- `SessionSlot` (lines 15–29). -/
inductive SessionSlot where
  | empty
  | ready (bound : Ready)
  | failed (generation : ℕ)
  | closed (generation : ℕ)
  deriving DecidableEq, Repr

/-- What a call of `execute` carries: its arguments and the generation it
loaded first (lines 61–67). -/
structure Context where
  generation : ℕ
  root : ℕ
  database : Option Text
  sql : Text
  deriving DecidableEq, Repr

/-- `SessionExecution` (lines 10–13); `V` is the type of query results. -/
structure SessionExecution (V : Type) where
  result : Except DbError V
  isolated : Bool

/-- Where a call is: the step it takes next. -/
inductive Call (V : Type) where
  | idle
  /-- `execute` has loaded the generation and waits for the slot. -/
  | executeLock (context : Context)
  /-- The connection has no session factory: the request runs on it. -/
  | executeRoot (context : Context)
  /-- The session in the slot does not match the call: it was taken out and
      will be closed. -/
  | closeOld (context : Context) (taken : Ready)
  | open (context : Context)
  /-- A session was opened; the generation will be loaded again. -/
  | checkOpened (context : Context) (session : ℕ)
  /-- The generation moved on while opening. -/
  | closeOpened (context : Context) (session : ℕ)
  | run (context : Context)
  /-- The request ran; the generation will be loaded again. -/
  | checkRun (context : Context) (result : Except DbError V)
  | closeStale (context : Context) (stale : Ready) (result : Except DbError V)
  /-- `close_invalidated` waits for the slot. -/
  | closeLock (generation : ℕ)
  /-- `close_invalidated` took a stale session out of the slot. -/
  | closeInvalidated (stale : Ready)

/-- What a call returned to its caller. -/
inductive Response (V : Type) where
  | execution (execution : SessionExecution V)
  | generation (generation : ℕ)
  | cleanup (result : Except DbError Unit)

/-- What a step did that others can see. -/
inductive Effect (V : Type) where
  | called (context : Context)
  | installed (bound : Ready)
  | closed (session : ℕ)
  | returned (response : Response V)

/-- The answers of the driver a step may ask for: whether the connection has a
session factory, and what `open`, `execute` and `close` return. `panics`
says that the driver's code panics instead. -/
structure Answer (V : Type) where
  hasFactory : Bool
  opened : Except DbError ℕ
  executed : Except DbError V
  closed : Except DbError Unit
  panics : Bool

/-- The first step of a call. -/
inductive Begin where
  | execute (root : ℕ) (database : Option Text) (sql : Text)
  | invalidate
  | closeInvalidated (generation : ℕ)
  deriving DecidableEq, Repr

/-- One step: of a thread, or of a session that ends by itself, which it
reports through `is_closed` from then on. -/
inductive Input (V : Type) where
  | start (thread : ℕ) (call : Begin)
  | resume (thread : ℕ) (answer : Answer V)
  | ended (session : ℕ)

/-- `failure` (lines 214–219). -/
def failure {V : Type} (message : String) (isolated : Bool) : SessionExecution V :=
  ⟨.error (.queryFailed message.toList), isolated⟩

variable {V : Type}

/-- `combine_cleanup` (lines 222–235). -/
def combineCleanup (result : Except DbError V) (cleanup : Except DbError Unit)
    (staleMessage : String) : Except DbError V :=
  match result, cleanup with
  | .ok _, .ok () => .error (.queryFailed staleMessage.toList)
  | .ok _, .error cleanup => .error cleanup
  | .error primary, .ok () => .error primary
  | .error primary, .error cleanup =>
    .error (.queryFailed (primary.display ++ "\nCleanup failed: ".toList ++ cleanup.display))

/-! ## The binding and its threads -/

/-- The binding, the calls in progress and what is known of the sessions: the
thread that holds the slot, whether a panic poisoned it, the values
`invalidate` returned, the sessions opened so far and those that report
themselves closed. -/
structure World (V : Type) where
  generation : ℕ
  slot : SessionSlot
  holder : Option ℕ
  poisoned : Bool
  calls : ℕ → Call V
  invalidated : List ℕ
  opened : List ℕ
  ended : List ℕ

namespace World

/-- `ExecutionSessionBinding::new` (lines 41–46), with no call in progress. -/
def new : World V := ⟨0, .empty, none, false, fun _ => .idle, [], [], []⟩

/-- The thread goes on to `call`; it holds the slot. -/
def goOn (w : World V) (thread : ℕ) (call : Call V) : World V :=
  { w with calls := Function.update w.calls thread call, holder := some thread }

/-- The thread's call returns and lets go of the slot. -/
def finish (w : World V) (thread : ℕ) : World V :=
  { w with calls := Function.update w.calls thread .idle, holder := none }

/-- The thread panics while it holds the slot. -/
def panicked (w : World V) (thread : ℕ) : World V := { w.finish thread with poisoned := true }

/-- `matches_context` (lines 90–101). -/
def matchesContext (w : World V) (context : Context) : Bool :=
  match w.slot with
  | .ready bound =>
    decide (bound.generation = context.generation) &&
      decide (bound.database = context.database) && decide (bound.root = context.root) &&
      !w.ended.contains bound.session
  | _ => false

/-- The slot remembers that a session of this generation failed or was closed
(lines 103–112). -/
def remembersEnd (slot : SessionSlot) (generation : ℕ) : Bool :=
  match slot with
  | .failed ended | .closed ended => decide (ended = generation)
  | _ => false

/-- `execute` from its lock up to the first call into the driver (lines
68–121). -/
def executeLocked (w : World V) (thread : ℕ) (context : Context) (hasFactory : Bool) :
    World V × List (Effect V) :=
  if w.poisoned then
    ({ w with calls := Function.update w.calls thread .idle },
      [.returned (.execution (failure "editor session state is unavailable" false))])
  else if !hasFactory then (w.goOn thread (.executeRoot context), [])
  else if classifySqlTransactionControl context.sql = .unsupported then
    (w.finish thread, [.returned (.execution
      (failure "unsupported or multiple transaction-control statements in the editor" true))])
  else if remembersEnd w.slot context.generation then
    (w.finish thread, [.returned (.execution
      (failure "editor session is closed or previously failed" true))])
  else if w.matchesContext context then (w.goOn thread (.run context), [])
  else
    match w.slot with
    | .ready taken => ({ w with slot := .empty }.goOn thread (.closeOld context taken), [])
    | _ => ({ w with slot := .empty }.goOn thread (.open context), [])

/-- `close_invalidated` from its lock up to its call into the driver (lines
183–210). -/
def closeLocked (w : World V) (thread : ℕ) (generation : ℕ) : World V × List (Effect V) :=
  if w.poisoned then
    ({ w with calls := Function.update w.calls thread .idle },
      [.returned (.cleanup (.error (.queryFailed "editor session state is unavailable".toList)))])
  else
    match w.slot with
    | .ready bound =>
      if bound.generation < generation then
        ({ w with slot := .empty }.goOn thread (.closeInvalidated bound), [])
      else (w.finish thread, [.returned (.cleanup (.ok ()))])
    | .failed ended | .closed ended =>
      if ended < generation then
        ({ w with slot := .empty }.finish thread, [.returned (.cleanup (.ok ()))])
      else (w.finish thread, [.returned (.cleanup (.ok ()))])
    | .empty => (w.finish thread, [.returned (.cleanup (.ok ()))])

/-- The driver's part of a step, unless it panics. -/
def orPanic (answer : Answer V) (w : World V) (thread : ℕ)
    (result : World V × List (Effect V)) : World V × List (Effect V) :=
  if answer.panics then (w.panicked thread, []) else result

/-- The next step of a call. Only the two lock steps wait. -/
def resume (w : World V) (thread : ℕ) (answer : Answer V) :
    Option (World V × List (Effect V)) :=
  match w.calls thread with
  | .idle => none
  | .executeLock context =>
    if w.holder.isSome then none else some (w.executeLocked thread context answer.hasFactory)
  | .executeRoot _ =>
    some (orPanic answer w thread
      (w.finish thread, [.returned (.execution ⟨answer.executed, false⟩)]))
  | .closeOld context taken =>
    -- `session.close()` is called whether it then fails, panics or not.
    some (
      let (after, effects) := orPanic answer w thread
        (match answer.closed with
        | .ok () => (w.goOn thread (.open context), [])
        | .error error => (w.finish thread, [.returned (.execution ⟨.error error, true⟩)]))
      (after, .closed taken.session :: effects))
  | .open context =>
    match answer.opened with
    | .ok session =>
      -- `open` opens a new session each time.
      if session ∈ w.opened then none
      else some (orPanic answer w thread
        ({ w with opened := session :: w.opened }.goOn thread (.checkOpened context session), []))
    | .error error =>
      some (orPanic answer w thread ({ w with slot := .failed context.generation }.finish thread,
          [.returned (.execution ⟨.error error, true⟩)]))
  | .checkOpened context session =>
    if context.generation ≠ w.generation then
      some (w.goOn thread (.closeOpened context session), [])
    else
      let bound : Ready := ⟨context.generation, context.root, context.database, session⟩
      some ({ w with slot := .ready bound }.goOn thread (.run context), [.installed bound])
  | .closeOpened context session =>
    some (
      let (after, effects) := orPanic answer w thread
        ({ w with slot := .closed context.generation }.finish thread, [.returned (.execution
            ⟨combineCleanup
              (.error (.queryFailed "editor session became stale while opening".toList))
              answer.closed "editor session became stale while opening", true⟩)])
      (after, .closed session :: effects))
  | .run context =>
    match w.slot with
    | .ready _ =>
      some (orPanic answer w thread (w.goOn thread (.checkRun context answer.executed), []))
    | _ =>
      some (w.finish thread,
        [.returned (.execution (failure "editor session was not installed" true))])
  | .checkRun context result =>
    match w.slot with
    | .ready bound =>
      if context.generation ≠ w.generation ∨ bound.session ∈ w.ended then
        some ({ w with slot := .closed context.generation }.goOn thread
          (.closeStale context bound result), [])
      else some (w.finish thread, [.returned (.execution ⟨result, true⟩)])
    | _ =>
      some (w.finish thread,
        [.returned (.execution (failure "editor session state changed unexpectedly" true))])
  | .closeStale _ stale result =>
    some (
      let (after, effects) := orPanic answer w thread
        (w.finish thread, [.returned (.execution
            ⟨combineCleanup result answer.closed "editor session became stale", true⟩)])
      (after, .closed stale.session :: effects))
  | .closeLock generation =>
    if w.holder.isSome then none else some (w.closeLocked thread generation)
  | .closeInvalidated stale =>
    some (
      let (after, effects) := orPanic answer w thread
        (w.finish thread, [.returned (.cleanup answer.closed)])
      (after, .closed stale.session :: effects))

/-- The first step of a call, on an idle thread. The callers of
`close_invalidated` pass what `invalidate` returned
(`code/mod.rs`, lines 1608–1612; `code/execution.rs`, lines 982–983;
`console/mod.rs`, lines 179–183). -/
def start (w : World V) (thread : ℕ) : Begin → Option (World V × List (Effect V))
  | .execute root database sql =>
    let context : Context := ⟨w.generation, root, database, sql⟩
    some ({ w with calls := Function.update w.calls thread (.executeLock context) },
      [.called context])
  | .invalidate =>
    let generation := (w.generation + 1) % 2 ^ 64
    some ({ w with generation := generation, invalidated := generation :: w.invalidated },
      [.returned (.generation generation)])
  | .closeInvalidated generation =>
    if generation ∈ w.invalidated then
      some ({ w with calls := Function.update w.calls thread (.closeLock generation) }, [])
    else none

/-- One step of one thread, or the end of a session. -/
def exec (w : World V) : Input V → Option (World V × List (Effect V))
  | .start thread call =>
    match w.calls thread with
    | .idle => w.start thread call
    | _ => none
  | .resume thread answer => w.resume thread answer
  | .ended session => some ({ w with ended := session :: w.ended }, [])

end World

end Dbflux.Session

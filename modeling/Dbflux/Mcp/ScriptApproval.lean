import Dbflux.Approval.Outstanding

/-!
# Approvals of scripts

The tools `create_script`, `update_script`, `delete_script` and `execute_script`
(`dbflux_mcp_server/src/tools/scripts.rs`, lines 198–386) under governance
(`governance.rs`, lines 135–227; `dbflux_mcp/src/server/authorization.rs`;
`runtime.rs`, lines 666–709), over the approval queue of `Dbflux.Approval`. A call of
`execute_script` reads the file, classifies what it read and asks for authorization.
When the policy wants an approval, the call uses up an approved entry whose actor,
connection, tool and arguments are its own, and otherwise queues an entry. The arguments
of `execute_script` are the path and the connection, not the text.

The scripts folder and its operations, the classifier and the policy are parameters.
Calls and statements of the queue interleave freely; a file operation is one step. For
each entry of the queue the state also records the text its script had when it was queued,
which the program does not keep.

Results:
* `approved_text_of_quiet`: if no file operation changes a script while an entry or a
  call to execute it is outstanding, an approved call sends the text that was queued.
* `approved_other_text`: a script is replaced after its approval, and the new text is sent.
-/

namespace Dbflux.Mcp.Scripts

open Dbflux.Lib Dbflux.Approval
open Option (map_eq_some_iff bind_eq_some_iff)

/-! ## The tools -/

/-- `QueryLanguage` (`dbflux_core/src/driver/capabilities.rs`, lines 984–1026). -/
inductive QueryLanguage
  | sql
  | cloudWatchLogsInsightsQl
  | openSearchPpl
  | openSearchSql
  | mongoQuery
  | redisCommands
  | cypher
  | influxQuery
  | flux
  | cql
  | lua
  | python
  | bash
  | custom (name : Text)
deriving DecidableEq

/-- Lua, Python and Bash scripts (`scripts.rs`, lines 296–300 and 826–831). -/
def QueryLanguage.isProgram : QueryLanguage → Bool
  | .lua | .python | .bash => true
  | _ => false

/-- The languages `execute_script_impl` runs (lines 847–875). -/
def QueryLanguage.isExecuted : QueryLanguage → Bool
  | .lua | .python | .bash | .custom _ => false
  | _ => true

/-- The arguments of a call, which are also the payload of its plan. -/
inductive Arguments
  | create (name content extension : Text) (folder : Option Text)
  | update (path content : Text)
  | delete (path confirm : Text)
  | execute (path : Text) (connectionId : String)
deriving DecidableEq

def Arguments.toolId : Arguments → String
  | .create .. => "create_script"
  | .update .. => "update_script"
  | .delete .. => "delete_script"
  | .execute .. => "execute_script"

/-- Only `execute_script` names a connection; the others are global. -/
def Arguments.connectionId : Arguments → Option String
  | .execute _ connectionId => some connectionId
  | _ => none

/-- `PolicyDecision`. -/
inductive PolicyDecision
  | allow
  | requireApproval
  | deny
deriving DecidableEq

/-- The scripts folder `F`, the connections `C`, and the settings a server runs with. -/
structure Server (F C : Type) where
  /-- What `read_script_for_execution` reads at a path, if it can. -/
  read : F → Text → Option Text
  /-- `create_script_impl` with a name, content, extension and folder. -/
  create : F → Text → Text → Text → Option Text → F
  /-- `update_script_impl` with a path and content. -/
  update : F → Text → Text → F
  /-- `delete_script_impl` with a path. -/
  delete : F → Text → F
  /-- `Path::file_name`. -/
  fileName : Text → Option Text
  /-- `QueryLanguage::from_path`. -/
  language : Text → Option QueryLanguage
  /-- `classify_query_for_governance`, with the connection if there is one. -/
  classifyQuery : QueryLanguage → Text → Option C → ExecutionClassification
  enforcesReadOnly : C → Bool
  mcpEnabled : String → Bool
  readOnlyConnection : String → Bool
  trusted : String → Bool
  /-- `PolicyEngine::evaluate` for an actor, a connection, a tool and a classification. -/
  evaluate : String → String → String → ExecutionClassification → PolicyDecision

/-- A call that asks for authorization. `script` is what `execute_script` read. -/
structure Request where
  actor : String
  arguments : Arguments
  classification : ExecutionClassification
  script : Option (QueryLanguage × Text)
  readOnly : Bool
deriving DecidableEq

/-- The plan of `RuntimeApprovalGate::resolve` (`runtime.rs`, lines 681–687). -/
def Request.plan (req : Request) : ExecutionPlan Arguments where
  connectionId := req.arguments.connectionId.getD ""
  actorId := req.actor
  toolId := req.arguments.toolId
  classification := req.classification
  payload := req.arguments

section Model

variable {F C : Type} (server : Server F C)

/-- `detect_execution_classification` (lines 817–836). -/
def detectExecutionClassification (language : QueryLanguage) (content : Text)
    (connection : Option C) : ExecutionClassification :=
  if language.isProgram then .admin else server.classifyQuery language content connection

/-- `govern_read_only` (lines 416–429): the classification, and whether read-only
execution is required. -/
def governReadOnly (classification : ExecutionClassification) (enforcesReadOnly : Bool) :
    ExecutionClassification × Bool :=
  match classification with
  | .read | .metadata => if enforcesReadOnly then (classification, true) else (.write, false)
  | _ => (classification, false)

/-- What a call does before it asks for authorization; `connection` is what
`get_or_connect` gave. -/
def prepare (folder : F) (actor : String) (arguments : Arguments) (connection : Option C) :
    Option Request :=
  match arguments with
  | .create .. | .update .. => some ⟨actor, arguments, .write, none, false⟩
  | .delete path confirm =>
    if server.fileName path = some confirm then some ⟨actor, arguments, .admin, none, false⟩
    else none
  | .execute path _ => do
    let content ← server.read folder path
    let language ← server.language path
    let connection := if language.isProgram then none else connection
    let (classification, readOnly) := governReadOnly
      (detectExecutionClassification server language content connection)
      (connection.elim false server.enforcesReadOnly)
    some ⟨actor, arguments, classification, some (language, content), readOnly⟩

/-- `authorize_request` up to the approval gate (`authorization.rs`, lines 146–296). -/
def authorize (req : Request) : PolicyDecision :=
  let mutates : Bool := match req.classification with
    | .metadata | .read => false
    | _ => true
  if req.arguments.connectionId.any (!server.mcpEnabled ·) then .deny
  else if req.arguments.connectionId.any server.readOnlyConnection && mutates then .deny
  else if !server.trusted req.actor then .deny
  else server.evaluate req.actor (req.arguments.connectionId.getD "") req.arguments.toolId
    req.classification

/-! ## Calls and the queue -/

/-- How far a process is in a tool call. -/
inductive ToolCall
  | idle
  | authorizing (req : Request)
  /-- In `consume_approved`. -/
  | consuming (req : Request)
  /-- Nothing was consumed; `request_execution` is next. -/
  | queueing (req : Request)
  /-- The handler is next. `approval` is the entry that was consumed for it. -/
  | allowed (req : Request) (approval : Option Uuid)
deriving DecidableEq

/-- An entry of the queue: its plan, and what its script was when it was queued. -/
structure Queued where
  plan : ExecutionPlan Arguments
  text : Option Text

/-- The folder, the queue and the calls. `queued` and `sent` are the history: the entries
queued so far, and the texts sent to a database by calls that consumed an entry. -/
structure State (F : Type) where
  folder : F
  queue : World Arguments
  tools : ℕ → ToolCall
  queued : Uuid → Option Queued
  sent : List (Uuid × Text)

def State.moved (s : State F) (proc : ℕ) (call : ToolCall) : State F :=
  { s with tools := Function.update s.tools proc call }

/-- What the call does with an answer of `consume_approved`, or without one yet. -/
def afterConsume (req : Request) : Option (Response Arguments) → ToolCall
  | none => .consuming req
  | some (.consumed none) => .queueing req
  | some (.consumed (some pending)) => .allowed req (some pending.id)
  | some _ => .idle

/-- What the script of a call holds now. -/
def scriptText (folder : F) : Arguments → Option Text
  | .execute path _ => server.read folder path
  | _ => none

/-- The call has queued the entry `id`. -/
def enqueued (s : State F) (proc : ℕ) (req : Request) (id : Uuid) (queue : World Arguments) :
    State F :=
  { s.moved proc .idle with
    queue := queue
    queued := Function.update s.queued id
      (some ⟨req.plan, scriptText server s.folder req.arguments⟩) }

/-- The handler. A driver that `refused` read-only execution ran nothing, and the script is
governed once more as a write (`govern_script_attempts`, lines 438–460). -/
def runHandler (s : State F) (proc : ℕ) (req : Request) (approval : Option Uuid)
    (refused : Bool) : State F :=
  match req.arguments with
  | .create name content extension folder =>
    { s.moved proc .idle with folder := server.create s.folder name content extension folder }
  | .update path content => { s.moved proc .idle with folder := server.update s.folder path content }
  | .delete path _ => { s.moved proc .idle with folder := server.delete s.folder path }
  | .execute .. =>
    if req.readOnly && refused then
      s.moved proc (.authorizing { req with classification := .write, readOnly := false })
    else
      { s.moved proc .idle with
        sent := s.sent ++ (do
          let (language, content) ← req.script
          let id ← approval
          if language.isExecuted then some (id, content) else none).toList }

/-- The steps of the clients' calls and of the people who decide on the queue. -/
inductive Input (C : Type)
  | call (proc : ℕ) (actor : String) (arguments : Arguments) (connection : Option C)
  | authorize (proc : ℕ) (now : ℤ)
  | consume (proc : ℕ)
  | queue (proc : ℕ) (nowMs ttlMs createdAt : ℤ) (id : Uuid)
  | run (proc : ℕ) (refused : Bool)
  /-- The database refuses a statement of the call. -/
  | fail (proc : ℕ) (message : String)
  /-- A statement of `approve`, `reject` or the clean-up. -/
  | person (proc : ℕ) (statement : Statement Arguments)

/-- `approve`, `reject` and the clean-up start neither a request nor a consumption. -/
def isDecision : Statement Arguments → Bool
  | .start (.request ..) | .start (.consume ..) => false
  | _ => true

/-- One step. -/
def step (s : State F) : Input C → Option (State F)
  | .call proc actor arguments connection =>
    match s.tools proc with
    | .idle => (prepare server s.folder actor arguments connection).map fun req =>
        s.moved proc (.authorizing req)
    | _ => none
  | .authorize proc now =>
    match s.tools proc with
    | .authorizing req =>
      match authorize server req with
      | .allow => some (s.moved proc (.allowed req none))
      | .deny => some (s.moved proc .idle)
      | .requireApproval =>
        (s.queue.exec (proc, .start (.consume now req.plan))).map fun (queue, response) =>
          { s.moved proc (afterConsume req response) with queue := queue }
    | _ => none
  | .consume proc =>
    match s.tools proc with
    | .consuming req =>
      (s.queue.exec (proc, .resume)).map fun (queue, response) =>
        { s.moved proc (afterConsume req response) with queue := queue }
    | _ => none
  | .queue proc nowMs ttlMs createdAt id =>
    match s.tools proc with
    | .queueing req =>
      (s.queue.exec (proc, .start (.request nowMs ttlMs createdAt req.plan id))).map
        fun (queue, _) => enqueued server s proc req id queue
    | _ => none
  | .run proc refused =>
    match s.tools proc with
    | .allowed req approval => some (runHandler server s proc req approval refused)
    | _ => none
  | .fail proc message =>
    (s.queue.exec (proc, .fail message)).map fun (queue, _) =>
      { s.moved proc .idle with queue := queue }
  | .person proc statement =>
    match s.tools proc with
    | .idle =>
      if isDecision statement then
        (s.queue.exec (proc, statement)).map fun (queue, _) => { s with queue := queue }
      else none
    | _ => none

/-! ## What an approval is to cover -/

/-- Every text sent under an approval is the text its script had when the approved entry
was queued. -/
def Covered (s : State F) : Prop :=
  ∀ sent ∈ s.sent, ∃ entry, s.queued sent.1 = some entry ∧ entry.text = some sent.2

/-- A call that may still use or queue an entry. One that runs read-only may come back to
be governed as a write. -/
def ToolCall.mayAsk : ToolCall → Option Request
  | .idle => none
  | .authorizing req | .consuming req | .queueing req => some req
  | .allowed req _ => if req.readOnly then some req else none

/-- Someone waits to execute the script: an entry that can still be consumed, or a call. -/
def Awaited (s : State F) (path : Text) : Prop :=
  (∃ row ∈ s.queue.rows, Outstanding s.queue row ∧
    ∃ connectionId, row.plan.payload = .execute path connectionId) ∨
  ∃ proc req, (s.tools proc).mayAsk = some req ∧
    ∃ connectionId, req.arguments = .execute path connectionId

/-- A step that leaves the scripts someone waits to execute as they are. -/
def QuietStep (s : State F) (i : Input C) (t : State F) : Prop :=
  step server s i = some t ∧
    ∀ path, Awaited s path → server.read t.folder path = server.read s.folder path

/-- Nothing is queued and nobody has called. -/
structure Initial (s : State F) : Prop where
  rows : s.queue.rows = []
  calls : ∀ proc, s.queue.calls proc = .idle
  tools : ∀ proc, s.tools proc = .idle
  queued : ∀ id, s.queued id = none
  sent : s.sent = []

end Model

/-! ## One step -/

section Steps

variable {F C : Type} {server : Server F C} {s t : State F}

/-- The request holds what its script holds now. -/
def Reads (server : Server F C) (folder : F) (req : Request) : Prop :=
  ∀ language text, req.script = some (language, text) →
    scriptText server folder req.arguments = some text

/-- The entry was queued with the text the request holds. -/
def Holds (s : State F) (req : Request) (id : Uuid) : Prop :=
  ∃ entry, s.queued id = some entry ∧
    ∀ language text, req.script = some (language, text) → entry.text = some text

/-- The call holds what its script holds now, and an entry that was queued with it. -/
def Fits (server : Server F C) (s : State F) (call : ToolCall) : Prop :=
  (∀ req, call.mayAsk = some req → Reads server s.folder req) ∧
    ∀ req id, call = .allowed req (some id) → Holds s req id

theorem fits_idle : Fits server s .idle := ⟨by simp [ToolCall.mayAsk], by simp⟩

/-- What holds between the folder, the queue and the calls while nobody changes a script
that someone waits to execute. -/
structure Sound (server : Server F C) (s : State F) : Prop where
  keyed : Keyed s.queue
  planned : Planned (fun id => (s.queued id).map Queued.plan) s.queue
  used : ∀ id entry, s.queued id = some entry → id ∈ s.queue.used
  consuming : ∀ proc plan candidate rest, s.queue.calls proc = .consumeUpdate plan candidate rest →
      ∃ req, s.tools proc = .consuming req ∧ plan = req.plan
  outstanding : ∀ row ∈ s.queue.rows, Outstanding s.queue row → ∀ entry,
    s.queued row.id = some entry → entry.text = scriptText server s.folder row.plan.payload
  asks : ∀ proc req, (s.tools proc).mayAsk = some req → Reads server s.folder req
  allowed : ∀ proc req id, s.tools proc = .allowed req (some id) → Holds s req id
  covered : Covered s

theorem sound_initial (h : Initial s) : Sound server s where
  keyed := ⟨by simp [h.rows], by simp [h.rows]⟩
  planned := ⟨by simp [h.rows], by simp [h.calls]⟩
  used := by simp [h.queued]
  consuming := by simp [h.calls]
  outstanding := by simp [h.rows]
  asks := by simp [h.tools, ToolCall.mayAsk]
  allowed := by simp [h.tools]
  covered := by simp [Covered, h.sent]

variable {proc : ℕ} {call : ToolCall} {queue : World Arguments}

variable (h : Sound server s)
include h

/-- A move of one call together with a queue in which no entry is new. -/
theorem Sound.moved (hkeyed : Keyed queue)
    (hplanned : Planned (fun id => (s.queued id).map Queued.plan) queue)
    (hused : ∀ id ∈ s.queue.used, id ∈ queue.used)
    (hrows : ∀ row ∈ queue.rows, Outstanding queue row →
      ∃ old ∈ s.queue.rows, old.id = row.id ∧ old.plan = row.plan ∧ Outstanding s.queue old)
    (hothers : ∀ q, q ≠ proc → queue.calls q = s.queue.calls q)
    (hconsuming : ∀ plan candidate rest, queue.calls proc = .consumeUpdate plan candidate rest →
      ∃ req, call = .consuming req ∧ plan = req.plan) (hfits : Fits server s call) :
    Sound server { s.moved proc call with queue := queue } := by
  have htools : ∀ q, (s.moved proc call).tools q = if q = proc then call else s.tools q := by
    intro q
    simp [State.moved, Function.update_apply]
  refine ⟨hkeyed, hplanned, fun id entry hq => hused id (h.used id entry hq),
    fun q plan candidate rest hc => ?_, fun row hrow hout entry hq => ?_, fun q req hu => ?_,
    fun q req id ha => ?_, h.covered⟩
  · rw [htools]
    split_ifs with hproc
    · rw [hproc] at hc
      exact hconsuming plan candidate rest hc
    · rw [hothers q hproc] at hc
      exact h.consuming q plan candidate rest hc
  · obtain ⟨old, hold, hid, hplan, hout'⟩ := hrows row hrow hout
    rw [← hplan]
    exact h.outstanding old hold hout' entry (hid ▸ hq)
  · rw [htools] at hu
    split_ifs at hu
    · exact hfits.1 req hu
    · exact h.asks q req hu
  · rw [htools] at ha
    split_ifs at ha
    · exact hfits.2 req id ha
    · exact h.allowed q req id ha

/-- A move of one call that is not in `consume_approved`. -/
theorem Sound.move {before : ToolCall} (hcall : s.tools proc = before)
    (hbefore : ∀ req, before ≠ .consuming req) (hfits : Fits server s call) :
    Sound server (s.moved proc call) := by
  refine h.moved h.keyed h.planned (fun _ hid => hid)
    (fun row hrow hout => ⟨row, hrow, rfl, rfl, hout⟩) (fun _ _ => rfl)
    (fun plan candidate rest hc => ?_) hfits
  obtain ⟨req, hreq, -⟩ := h.consuming proc plan candidate rest hc
  exact absurd (hcall.symm.trans hreq) (hbefore req)

/-- A call that is not in `consume_approved` ends. -/
theorem Sound.ended {before : ToolCall} (hcall : s.tools proc = before)
    (hbefore : ∀ req, before ≠ .consuming req) : Sound server (s.moved proc .idle) :=
  h.move hcall hbefore fits_idle

variable {r : Option (Response Arguments)} {st : Statement Arguments}

/-- A statement that requests nothing, and the move of its call. -/
theorem Sound.statement (hexec : s.queue.exec (proc, st) = some (queue, r))
    (hnew : st.requested = none)
    (hconsuming : ∀ plan candidate rest, queue.calls proc = .consumeUpdate plan candidate rest →
      ∃ req, call = .consuming req ∧ plan = req.plan) (hfits : Fits server s call) :
    Sound server { s.moved proc call with queue := queue } := by
  have hnone : ∀ id plan, st.requested = some (id, plan) →
      (s.queued id).map Queued.plan = some plan := by
    intro id plan hreq
    rw [hnew] at hreq
    cases hreq
  have hexec' : ExecStep World.exec s.queue ((proc, st), r) queue := hexec
  refine h.moved (keyed_exec hexec' h.keyed)
    (planned_exec h.planned hexec hnone) (used_exec hexec) (fun row hrow hout => ?_)
    (calls_exec hexec) hconsuming hfits
  rcases outstanding_exec h.keyed hexec hrow hout with hold | hreq
  · exact hold
  · rw [hnew] at hreq
    cases hreq

variable {req : Request} {approval : Option Uuid}

omit h in
theorem eq_of_mayAsk_allowed {req' : Request}
    (h : (ToolCall.allowed req approval).mayAsk = some req') :
    req.readOnly = true ∧ req' = req := by
  simp only [ToolCall.mayAsk] at h
  split_ifs at h with hreadOnly
  exact ⟨hreadOnly, (Option.some.inj h).symm⟩

/-- A statement of `consume_approved`. -/
theorem Sound.consumed (hexec : s.queue.exec (proc, st) = some (queue, r))
    (hreq : Reads server s.folder req)
    (hst : (∃ now, st = .start (.consume now req.plan)) ∨
      st = .resume ∧ s.tools proc = .consuming req) :
    Sound server { s.moved proc (afterConsume req r) with queue := queue } := by
  refine h.statement hexec ?_ (fun plan candidate rest hcall => ?_)
    ⟨fun req' hu => ?_, fun req' id ha => ?_⟩
  · obtain ⟨now, rfl⟩ | ⟨rfl, -⟩ := hst
    · rfl
    · rfl
  · obtain ⟨rfl, hasked⟩ := consumeUpdate_exec hexec hcall
    refine ⟨req, rfl, ?_⟩
    obtain ⟨now, rfl⟩ | ⟨rfl, hconsuming⟩ := hst
    · obtain ⟨now', heq⟩ | ⟨heq, -⟩ := hasked
      · cases heq
        rfl
      · cases heq
    · obtain ⟨now', heq⟩ | ⟨-, tried, others, hbefore⟩ := hasked
      · cases heq
      · obtain ⟨req', hreq', hplan⟩ := h.consuming proc plan tried others hbefore
        rw [hconsuming] at hreq'
        cases hreq'
        exact hplan
  · unfold afterConsume at hu
    split at hu
    · exact Option.some.inj hu ▸ hreq
    · exact Option.some.inj hu ▸ hreq
    · exact (eq_of_mayAsk_allowed hu).2 ▸ hreq
    · cases hu
  · -- the entry that was consumed is for the same script
    have hgranted : req' = req ∧ ∃ pending : PendingExecution Arguments,
        pending.id = id ∧ r = some (.consumed (some pending)) := by
      unfold afterConsume at ha
      split at ha <;> cases ha
      exact ⟨rfl, _, rfl, rfl⟩
    obtain ⟨rfl, pending, rfl, rfl⟩ := hgranted
    obtain ⟨plan, candidate, rest, hcall, row, hrow, hid, hstatus, hmatch⟩ :=
      matches_of_consumed h.keyed h.planned hexec
    obtain ⟨asked, hasked, rfl⟩ := h.consuming proc plan candidate rest hcall
    have hsame : asked.plan.payload = req'.arguments := by
      obtain ⟨now, rfl⟩ | ⟨rfl, hconsuming⟩ := hst
      · -- a call that starts is not in `consume_approved`
        have hidle : s.queue.calls proc = .idle := by
          simp only [World.exec, Option.ite_none_right_eq_some] at hexec
          exact hexec.1.1
        rw [hidle] at hcall
        cases hcall
      · rw [hconsuming] at hasked
        cases hasked
        rfl
    have hplan := h.planned.rows row hrow
    obtain ⟨entry, hentry, -⟩ := map_eq_some_iff.mp hplan
    have hpayload : row.plan.payload = req'.arguments := by
      simp only [approvalMatchesPlan, Bool.and_eq_true, decide_eq_true_eq] at hmatch
      exact hmatch.2.trans hsame
    refine ⟨entry, hid ▸ hentry, fun language text hscript => ?_⟩
    rw [h.outstanding row hrow (Or.inr (Or.inl hstatus)) entry hentry, hpayload]
    exact hreq language text hscript

/-- An entry is queued with what its script holds now. -/
theorem Sound.queues {nowMs ttlMs createdAt : ℤ} {id : Uuid}
    (hexec : s.queue.exec (proc, .start (.request nowMs ttlMs createdAt req.plan id)) =
      some (queue, r)) : Sound server (enqueued server s proc req id queue) := by
  have hqueued : ∀ id', (enqueued server s proc req id queue).queued id' =
      if id' = id then some ⟨req.plan, scriptText server s.folder req.arguments⟩
      else s.queued id' := by
    intro id'
    simp [enqueued, Function.update_apply]
  obtain ⟨_, heq, hnew, hrun, -⟩ | ⟨heq, -⟩ | ⟨_, heq, -⟩ := exec_cases hexec <;> cases heq
  -- the id is new, so the entries queued before stay recorded
  have hkept : ∀ id' entry, s.queued id' = some entry →
      (enqueued server s proc req id queue).queued id' = some entry := by
    intro id' entry hq
    rw [hqueued, if_neg, hq]
    rintro rfl
    exact hnew id' rfl (h.used id' entry hq)
  have hplanned : Planned (fun id' =>
      ((enqueued server s proc req id queue).queued id').map Queued.plan) s.queue := by
    refine h.planned.mono fun id' plan hplan => ?_
    obtain ⟨entry, hentry, rfl⟩ := map_eq_some_iff.mp hplan
    rw [hkept _ _ hentry, Option.map_some]
  have hexec' : ExecStep World.exec s.queue
    ((proc, .start (.request nowMs ttlMs createdAt req.plan id)), r) queue := hexec
  have htools : ∀ q, (enqueued server s proc req id queue).tools q =
      if q = proc then .idle else s.tools q := by
    intro q
    simp [enqueued, State.moved, Function.update_apply]
  refine ⟨keyed_exec hexec' h.keyed, planned_exec hplanned hexec ?_, fun id' entry hq => ?_,
    fun q plan candidate rest hc => ?_, fun row hrow hout entry hq => ?_, fun q req' hu => ?_,
    fun q req' id' ha => ?_, fun sent hsent => ?_⟩
  · intro id' plan heq
    cases heq
    rw [hqueued, if_pos rfl, Option.map_some]
  · rw [hqueued] at hq
    subst hrun
    split_ifs at hq with hid
    · exact List.mem_append_left _ (List.mem_singleton.mpr hid)
    · exact List.mem_append_right _ (h.used id' entry hq)
  · rw [htools]
    split_ifs with hproc
    · subst hproc
      obtain ⟨-, ⟨now, heq⟩ | ⟨heq, -⟩⟩ := consumeUpdate_exec hexec hc <;> cases heq
    · exact h.consuming q plan candidate rest ((calls_exec hexec q hproc).symm.trans hc)
  · rcases outstanding_exec h.keyed hexec hrow hout with ⟨old, hold, hid, hplan, hout'⟩ | heq
    · obtain ⟨before, hbefore, -⟩ := map_eq_some_iff.mp (h.planned.rows old hold)
      rw [← hid, hkept _ _ hbefore] at hq
      cases hq
      rw [← hplan]
      exact h.outstanding old hold hout' _ hbefore
    · obtain ⟨rfl, hplan⟩ := Prod.mk.inj (Option.some.inj heq)
      rw [hqueued, if_pos rfl] at hq
      cases hq
      rw [← hplan]
      rfl
  · rw [htools] at hu
    split_ifs at hu
    · cases hu
    · exact h.asks q req' hu
  · rw [htools] at ha
    split_ifs at ha
    obtain ⟨entry, hentry, htext⟩ := h.allowed q req' id' ha
    exact ⟨entry, hkept _ _ hentry, htext⟩
  · obtain ⟨entry, hentry, htext⟩ := h.covered sent hsent
    exact ⟨entry, hkept _ _ hentry, htext⟩

/-- A file operation that leaves the scripts someone waits to execute as they are. -/
theorem Sound.folder {folder : F}
    (hquiet : ∀ path, Awaited s path → server.read folder path = server.read s.folder path) :
    Sound server { s with folder := folder } := by
  refine ⟨h.keyed, h.planned, h.used, h.consuming, fun row hrow hout entry hq => ?_,
    fun proc req hu language text hscript => ?_, h.allowed, h.covered⟩
  · rw [h.outstanding row hrow hout entry hq]
    cases hpayload : row.plan.payload with
    | execute path connectionId =>
      exact (hquiet path (.inl ⟨row, hrow, hout, connectionId, hpayload⟩)).symm
    | _ => rfl
  · have hbefore := h.asks proc req hu language text hscript
    cases harguments : req.arguments with rw [harguments] at hbefore
    | execute path connectionId =>
      exact (hquiet path (.inr ⟨proc, req, hu, connectionId, harguments⟩)).trans hbefore
    | _ =>
      cases hbefore

omit h in
theorem reads_of_prepare {actor : String} {arguments : Arguments} {connection : Option C}
    (h : prepare server s.folder actor arguments connection = some req) :
    Reads server s.folder req := by
  unfold prepare at h
  split at h
  · cases h
    simp [Reads]
  · cases h
    simp [Reads]
  · split_ifs at h
    cases h
    simp [Reads]
  · obtain ⟨content, hcontent, h⟩ := bind_eq_some_iff.mp h
    obtain ⟨language, -, h⟩ := bind_eq_some_iff.mp h
    cases h
    intro language' text hscript
    cases hscript
    exact hcontent

/-- The handler of an allowed call. -/
theorem Sound.run {refused : Bool} (hcall : s.tools proc = .allowed req approval)
    (hquiet : ∀ path, Awaited s path →
      server.read (runHandler server s proc req approval refused).folder path =
        server.read s.folder path) :
    Sound server (runHandler server s proc req approval refused) := by
  have hidle : Sound server (s.moved proc .idle) := h.ended hcall (by simp)
  cases harguments : req.arguments with
  | execute path connectionId =>
    simp only [runHandler, harguments]
    split_ifs with hagain
    · -- the second attempt holds the text of the first
      refine h.move hcall (by simp) ⟨fun req' hu => ?_, by simp⟩
      cases hu
      have hreads := h.asks proc req (by
        rw [hcall, ToolCall.mayAsk, if_pos (Bool.and_eq_true_iff.mp hagain).1])
      intro language text hscript
      exact harguments ▸ hreads language text hscript
    · refine ⟨hidle.keyed, hidle.planned, hidle.used, hidle.consuming, hidle.outstanding,
        hidle.asks, hidle.allowed, fun sent hsent => ?_⟩
      obtain hold | hnew := List.mem_append.mp hsent
      · exact h.covered sent hold
      · obtain ⟨⟨language, content⟩, hscript, hid⟩ :=
          bind_eq_some_iff.mp (Option.mem_toList.mp hnew)
        obtain ⟨id, rfl, hid⟩ := bind_eq_some_iff.mp hid
        obtain ⟨entry, hentry, htext⟩ := h.allowed proc req id hcall
        obtain ⟨-, hid⟩ := Option.ite_none_right_eq_some.mp hid
        cases hid
        exact ⟨entry, hentry, htext language content hscript⟩
  | _ =>
    -- the other handlers change the folder
    simp only [runHandler, harguments] at hquiet ⊢
    -- nobody begins to wait when a call ends
    refine hidle.folder fun path hpath => hquiet path ?_
    obtain hrow | ⟨q, req, hu, hpath⟩ := hpath
    · exact Or.inl hrow
    · simp only [State.moved, Function.update_apply] at hu
      split_ifs at hu
      · cases hu
      · exact Or.inr ⟨q, req, hu, hpath⟩

theorem Sound.step {i : Input C} (hstep : QuietStep server s i t) : Sound server t := by
  obtain ⟨hstep, hquiet⟩ := hstep
  cases i with simp only [Scripts.step] at hstep
  | call proc actor arguments connection =>
    split at hstep
    next hcall =>
      obtain ⟨req, hreq, rfl⟩ := map_eq_some_iff.mp hstep
      refine h.move hcall (by simp) ⟨fun req' hu => ?_, by simp⟩
      cases hu
      exact reads_of_prepare hreq
    next => cases hstep
  | authorize proc now =>
    split at hstep
    next req hcall =>
      have hreads := h.asks proc req (by rw [hcall]; rfl)
      split at hstep
      next =>
        cases hstep
        refine h.move hcall (by simp) ⟨fun req' hu => ?_, by simp⟩
        exact (eq_of_mayAsk_allowed hu).2 ▸ hreads
      next =>
        cases hstep
        exact h.ended hcall (by simp)
      next =>
        obtain ⟨⟨queue, r⟩, hexec, rfl⟩ := map_eq_some_iff.mp hstep
        exact h.consumed hexec hreads (.inl ⟨now, rfl⟩)
    next => cases hstep
  | consume proc =>
    split at hstep
    next req hcall =>
      obtain ⟨⟨queue, r⟩, hexec, rfl⟩ := map_eq_some_iff.mp hstep
      exact h.consumed hexec (h.asks proc req (by rw [hcall]; rfl)) (.inr ⟨rfl, hcall⟩)
    next => cases hstep
  | queue proc nowMs ttlMs createdAt id =>
    split at hstep
    next req hcall =>
      obtain ⟨⟨queue, r⟩, hexec, rfl⟩ := map_eq_some_iff.mp hstep
      exact h.queues hexec
    next => cases hstep
  | run proc refused =>
    split at hstep
    next req approval hcall =>
      cases hstep
      exact h.run hcall hquiet
    next => cases hstep
  | fail proc message =>
    obtain ⟨⟨queue, r⟩, hexec, rfl⟩ := map_eq_some_iff.mp hstep
    refine h.statement hexec rfl (fun plan candidate rest hcall => ?_) fits_idle
    obtain ⟨-, ⟨now, heq⟩ | ⟨heq, -⟩⟩ := consumeUpdate_exec hexec hcall <;> cases heq
  | person proc statement =>
    split at hstep
    next hidle =>
      split_ifs at hstep with hdecision
      obtain ⟨⟨queue, r⟩, hexec, rfl⟩ := map_eq_some_iff.mp hstep
      have hsame : s.moved proc .idle = s := by
        rw [State.moved, ← hidle, Function.update_eq_self]
      have hrequested : statement.requested = none := by
        cases statement with
        | start call =>
          cases call with
          | request => cases hdecision
          | _ => rfl
        | _ => rfl
      have hsound : Sound server { s.moved proc .idle with queue := queue } := by
        refine h.statement hexec hrequested (fun plan candidate rest hcall => ?_) fits_idle
        obtain ⟨-, ⟨now, rfl⟩ | ⟨rfl, tried, others, hbefore⟩⟩ := consumeUpdate_exec hexec hcall
        · cases hdecision
        · obtain ⟨req, hreq, -⟩ := h.consuming proc plan tried others hbefore
          rw [hidle] at hreq
          cases hreq
      rwa [hsame] at hsound
    next => cases hstep

omit h

/-- **Approvals in quiet runs.** However calls, approvals, rejections and failures
interleave, as long as no file operation changes a script while an entry or a call to
execute it is outstanding, every text sent under an approval is the text its script had
when the approved entry was queued. -/
theorem approved_text_of_quiet {inputs : List (Input C)} (hinit : Initial s)
    (hrun : Run (QuietStep server) s inputs t) : Covered t :=
  (hrun.invariant (fun _ _ _ h hstep => .step h hstep) (sound_initial hinit)).covered

end Steps

/-! ## A script that is replaced -/

def reportPath : Text := "report.sql".toList

/-- A folder for one script, `report.sql`; a policy that wants an approval for
`execute_script` and allows the other tools. -/
def reportServer : Server (Option Text) Unit where
  read folder path := if path = reportPath then folder else none
  create folder name content extension _ :=
    if name ++ '.' :: extension = reportPath ∧ folder.isNone then some content else folder
  update folder path content := if path = reportPath ∧ folder.isSome then some content else folder
  delete folder path := if path = reportPath then none else folder
  fileName path := some path
  language path := if path = reportPath then some .sql else none
  classifyQuery _ content _ := if "SELECT".toList.isPrefixOf content then .read else .destructive
  enforcesReadOnly _ := true
  mcpEnabled _ := true
  readOnlyConnection _ := false
  trusted _ := true
  evaluate _ _ tool _ := if tool = "execute_script" then .requireApproval else .allow

def selectText : Text := "SELECT 1".toList

def dropText : Text := "DROP TABLE users".toList

/-- A server that starts with the script in its folder. -/
def reportState : State (Option Text) :=
  ⟨some selectText, emptyWorld Arguments, fun _ => .idle, fun _ => none, []⟩

theorem reportState_initial : Initial reportState :=
  ⟨rfl, fun _ => rfl, fun _ => rfl, fun _ => rfl, rfl⟩

def executeReport : Input Unit := .call 0 "agent" (.execute reportPath "db") (some ())

/-- A client asks to execute the script, and a person approves. -/
def askAndApprove : List (Input Unit) :=
  [executeReport, .authorize 0 1, .queue 0 1 1000 1 7,
    .person 1 (.start (.approve 2 7)), .person 1 .resume, .person 1 .resume]

/-- The client asks again. -/
def executeAgain : List (Input Unit) :=
  [executeReport, .authorize 0 4, .consume 0, .run 0 false]

def updateReport : List (Input Unit) :=
  [.call 0 "agent" (.update reportPath dropText) none, .authorize 0 3, .run 0 false]

theorem approved_text_of_quiet_report :
    ∃ t inputs, Run (QuietStep reportServer) reportState inputs t ∧
      t.sent = [(7, selectText)] ∧ Covered t := by
  have heval : ((askAndApprove ++ executeAgain).foldlM (fun s i =>
      (step reportServer s i).filter fun t => t.folder = s.folder) reportState).map State.sent =
        some [(7, selectText)] := by decide +kernel
  obtain ⟨t, hrun, hsent⟩ := map_eq_some_iff.mp heval
  have hquiet : Run (QuietStep reportServer) reportState (askAndApprove ++ executeAgain) t := by
    refine (Run.of_foldlM hrun).mono fun s i t hstep => ?_
    obtain ⟨hstep, hfolder⟩ := Option.filter_eq_some_iff.mp hstep
    refine ⟨hstep, fun path _ => ?_⟩
    rw [of_decide_eq_true hfolder]
  exact ⟨t, _, hquiet, hsent, approved_text_of_quiet reportState_initial hquiet⟩

/-- The client replaces the script between the approval and its second call: the entry
was queued and approved for one text, and the other is sent. -/
theorem approved_other_text :
    ((askAndApprove ++ updateReport ++ executeAgain).foldlM (step reportServer) reportState).map
        (fun t => (t.sent, (t.queued 7).bind Queued.text)) =
      some ([(7, dropText)], some selectText) ∧
    ∃ t inputs, Run (fun s i t => step reportServer s i = some t) reportState inputs t ∧
      ¬ Covered t := by
  have heval : ((askAndApprove ++ updateReport ++ executeAgain).foldlM (step reportServer)
      reportState).map (fun t => (t.sent, (t.queued 7).bind Queued.text)) =
        some ([(7, dropText)], some selectText) := by decide +kernel
  refine ⟨heval, ?_⟩
  obtain ⟨t, hrun, hvalues⟩ := map_eq_some_iff.mp heval
  obtain ⟨hsent, htext⟩ := Prod.mk.inj hvalues
  refine ⟨t, _, .of_foldlM hrun, fun hcovered => ?_⟩
  have hmem : (7, dropText) ∈ t.sent := hsent ▸ List.mem_singleton_self _
  obtain ⟨entry, hentry, hsame⟩ := hcovered (7, dropText) hmem
  rw [hentry] at htext
  have hdiffer : dropText = selectText := Option.some.inj (hsame.symm.trans htext)
  exact absurd hdiffer (by decide)

end Dbflux.Mcp.Scripts

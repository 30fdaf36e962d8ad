import Dbflux.Lib.Text

/-!
# The transfer pipeline

`run_transfer` (`dbflux_transfer/src/pipeline.rs`) moves rows from a source to a
sink in chunks. Export, import and migration all run it. Another thread may set
the cancel token at any time; the pipeline reads it before every chunk, and the
sources read it again when they are asked for one.

A source is specified by the rows it has left (`Delivers`): it gives them in
segments, and nothing more once they are gone or the token is set.

Results:
* `uncancelled_run`: a run that returns with the token unset has fed the sink
  every row.
* `run_ok`: a run that cannot fail returns.
* `completed_iff_of_delivers`: a completed run has handed over every row exactly
  if the token was not set between the two reads of one turn while rows were
  left; a run that the pipeline's own check ends reports `Cancelled`.
* `transferLoop_isSome`: the loop ends.
-/

namespace Dbflux.Transfer

open Lib

/-! ## Model -/

/-- A cancel token (`CancelToken`) that another thread sets: the read with
number `moment` is the first to see it set. It never becomes unset. -/
structure CancelToken where
  moment : Option ℕ
  reads : ℕ
  deriving DecidableEq, Repr

namespace CancelToken

/-- `CancelToken::is_cancelled`: what the next read sees. -/
def isCancelled (token : CancelToken) : Bool := token.moment.any (· ≤ token.reads)

/-- The token behind a read. -/
def read (token : CancelToken) : CancelToken := { token with reads := token.reads + 1 }

variable (token : CancelToken)

@[simp] theorem reads_read : token.read.reads = token.reads + 1 := rfl

/-- The same token after more reads. -/
def Later (token token' : CancelToken) : Prop :=
  token'.moment = token.moment ∧ token.reads ≤ token'.reads

theorem Later.refl : Later token token := ⟨rfl, le_rfl⟩

theorem later_read : Later token token.read := ⟨rfl, Nat.le_succ _⟩

theorem Later.trans {a b c : CancelToken} (hab : Later a b) (hbc : Later b c) : Later a c :=
  ⟨hbc.1.trans hab.1, hab.2.trans hbc.2⟩

variable {token : CancelToken}

theorem isCancelled_iff : token.isCancelled ↔ ∃ m, token.moment = some m ∧ m ≤ token.reads := by
  simp [isCancelled, Option.any_eq_true]

variable {token' : CancelToken}

/-- A token that is not set now was not set before. -/
theorem Later.not_isCancelled (h : Later token token') (hunset : token'.isCancelled = false) :
    token.isCancelled = false := by
  rw [← Bool.not_eq_true, isCancelled_iff] at hunset ⊢
  rintro ⟨m, hmoment, hm⟩
  exact hunset ⟨m, h.1.trans hmoment, hm.trans h.2⟩

theorem isCancelled_of_moment_none (h : token.moment = none) : token.isCancelled = false := by
  simp [isCancelled, h]

end CancelToken

/-- `TransferError` (lines 11–16). -/
inductive TransferError where
  | source (message : Text)
  | sink (message : Text)
  deriving DecidableEq, Repr

/-- `TransferOutcome` (lines 20–23). -/
inductive TransferOutcome where
  | completed
  | cancelled
  deriving DecidableEq, Repr

/-- `TransferReport` (lines 27–31). -/
structure TransferReport where
  rowsTransferred : ℕ
  outcome : TransferOutcome
  warnings : List Text
  deriving DecidableEq, Repr

/-- `TableMappingMode` (lines 68–83). -/
inductive TableMappingMode where
  | create
  | existing
  | recreate
  | skip
  | truncate
  deriving DecidableEq, Repr

/-- `RowSource` (lines 86–95) with states `σ`. A source reads the
token itself. -/
structure RowSource (R σ : Type) where
  nextChunk : σ → CancelToken → Except TransferError (Option (List R)) × σ × CancelToken
  estimatedTotal : σ → Option ℕ

/-- What is used of a `ColumnMap` (lines 98–114). -/
structure ColumnMap (R R' : Type) where
  project : R → R'
  warnings : List Text

/-- `RowSink` (lines 117–130) with states `τ`; `begin` is already
given its columns and mode. -/
structure RowSink (R τ : Type) where
  begin : τ → Except TransferError Unit × τ
  writeChunk : τ → List R → Except TransferError ℕ × τ
  finish : τ → Except TransferError TransferReport × τ

/-- What a run leaves behind: its result, the chunks handed to the sink, the
calls of `on_progress`, and the states. -/
structure Transferred (R σ τ : Type) where
  result : Except TransferError TransferReport
  chunks : List (List R)
  progress : List (ℕ × Option ℕ)
  source : σ
  sink : τ
  token : CancelToken

section Run

variable {R R' σ τ : Type} (S : RowSource R σ) (map : ColumnMap R R') (K : RowSink R' τ)

/-- `sink.finish()` and the report of the run (lines 153–158 and
173–177). -/
def finishTransfer (source : σ) (sink : τ) (token : CancelToken) (cancelled : Bool) :
    Transferred R' σ τ :=
  match K.finish sink with
  | (.error e, sink) => ⟨.error e, [], [], source, sink, token⟩
  | (.ok report, sink) =>
    ⟨.ok { report with
        outcome := if cancelled then .cancelled else report.outcome
        warnings := report.warnings ++ map.warnings }, [], [], source, sink, token⟩

/-- The loop of `run_transfer` (lines 149–170) with at most `fuel`
turns. -/
def transferLoop (total : Option ℕ) :
    ℕ → σ → τ → CancelToken → ℕ → Option (Transferred R' σ τ)
  | 0, _, _, _, _ => none
  | fuel + 1, source, sink, token, rowsDone =>
    if token.isCancelled then some (finishTransfer map K source sink token.read true)
    else
      match S.nextChunk source token.read with
      | (.error e, source, token) => some ⟨.error e, [], [], source, sink, token⟩
      | (.ok none, source, token) => some (finishTransfer map K source sink token false)
      | (.ok (some chunk), source, token) =>
        let mapped := chunk.map map.project
        match K.writeChunk sink mapped with
        | (.error e, sink) => some ⟨.error e, [mapped], [], source, sink, token⟩
        | (.ok written, sink) =>
          let rowsDone := rowsDone + written
          (transferLoop total fuel source sink token rowsDone).map fun run =>
            { run with chunks := mapped :: run.chunks
                       progress := (rowsDone, total) :: run.progress }

/-- `run_transfer` (lines 136–178) with at most `fuel` turns. -/
def runTransfer (fuel : ℕ) (source : σ) (sink : τ) (token : CancelToken) :
    Option (Transferred R' σ τ) :=
  match K.begin sink with
  | (.error e, sink) => some ⟨.error e, [], [], source, sink, token⟩
  | (.ok (), sink) => transferLoop S map K (S.estimatedTotal source) fuel source sink token 0

end Run

/-! ## What a source delivers -/

variable {R R' σ τ : Type} {S : RowSource R σ} {map : ColumnMap R R'} {K : RowSink R' τ}

/-- A source in a state of `I s rest` has the rows `rest` left, and gives them in
segments. -/
structure Delivers (S : RowSource R σ) (segmentSize : ℕ) (I : σ → List R → Prop) : Prop where
  /-- A source without rows gives nothing or fails, whatever the token says. -/
  exhausted : ∀ {s token}, I s [] → ∃ s' token', S.nextChunk s token = (.ok none, s', token') ∨
    ∃ e, S.nextChunk s token = (.error e, s', token')
  /-- A source with rows reads the token once and gives nothing if it is set. -/
  cancelled : ∀ {s rest token}, I s rest → rest ≠ [] → token.isCancelled = true →
    S.nextChunk s token = (.ok none, s, token.read)
  /-- Otherwise it fails or gives the next segment. -/
  segment : ∀ {s rest token}, I s rest → rest ≠ [] → token.isCancelled = false →
    (∃ e s', S.nextChunk s token = (.error e, s', token.read)) ∨
    ∃ s', S.nextChunk s token = (.ok (some (rest.take segmentSize)), s', token.read) ∧
      I s' (rest.drop segmentSize)

variable {segmentSize fuel rowsDone : ℕ} {I : σ → List R → Prop} {rest rows : List R} {source : σ}
  {sink : τ} {token : CancelToken} {report : TransferReport} {total : Option ℕ}
  {run : Transferred R' σ τ}

/-- What every answer keeps may be added to the states of a source. -/
theorem Delivers.and (hS : Delivers S segmentSize I) {P : σ → Prop}
    (hP : ∀ {s token answer s' token'}, S.nextChunk s token = (answer, s', token') → P s → P s') :
    Delivers S segmentSize fun s rest => P s ∧ I s rest where
  exhausted := fun hs => hS.exhausted hs.2
  cancelled := fun hs => hS.cancelled hs.2
  segment := by
    intro s rest token hs hrest hcancelled
    rcases hS.segment hs.2 hrest hcancelled with herror | ⟨s', hnext, hs'⟩
    · exact .inl herror
    · exact .inr ⟨s', hnext, hP hnext hs.1, hs'⟩

/-- What an answer that is no failure tells of the rows that were left. -/
theorem Delivers.next (hS : Delivers S segmentSize I) {s s' : σ} {chunk : Option (List R)}
    (hs : I s rest) (hnext : S.nextChunk s token = (.ok chunk, s', token')) :
    (chunk = none ∧ (rest = [] ∨ token.isCancelled = true ∧ rest ≠ [] ∧ token' = token.read)) ∨
    (chunk = some (rest.take segmentSize) ∧ rest ≠ [] ∧ token.isCancelled = false ∧
      token' = token.read ∧ I s' (rest.drop segmentSize)) := by
  by_cases hrest : rest = []
  · subst hrest
    obtain ⟨t, u, hnone | ⟨e, herror⟩⟩ : ∃ t u, S.nextChunk s token = (.ok none, t, u) ∨
        ∃ e, S.nextChunk s token = (.error e, t, u) := hS.exhausted hs
    · cases hnext.symm.trans hnone
      exact .inl ⟨rfl, .inl rfl⟩
    · cases hnext.symm.trans herror
  cases hcancelled : token.isCancelled with
  | true =>
    cases hnext.symm.trans (hS.cancelled hs hrest hcancelled)
    exact .inl ⟨rfl, .inr ⟨rfl, hrest, rfl⟩⟩
  | false =>
    rcases hS.segment hs hrest hcancelled with ⟨e, t, herror⟩ | ⟨t, hsome, ht⟩
    · cases hnext.symm.trans herror
    · cases hnext.symm.trans hsome
      exact .inr ⟨rfl, hrest, rfl, rfl, ht⟩

/-- The token is set between the two reads of a turn, while rows are left: the
turns so far have taken a segment each, and every turn reads twice. -/
def SetWithinTurn (moment : Option ℕ) (reads segmentSize : ℕ) (rest : List R) : Prop :=
  ∃ turn, turn * segmentSize < rest.length ∧ moment = some (reads + 2 * turn + 1)

/-- The pipeline's own check is the first to see the token set: the one before the
first turn, or the one behind a turn that had rows to take. -/
def SetAtCheck (moment : Option ℕ) (reads segmentSize : ℕ) (rest : List R) : Prop :=
  ∃ m, moment = some m ∧
    (m ≤ reads ∨ ∃ turn, turn * segmentSize < rest.length ∧ m = reads + 2 * turn + 2)

/-- In a turn that is not cancelled, the question moves on to the next turn. -/
theorem setWithinTurn_drop {moment : Option ℕ} {reads : ℕ} (hnot : moment ≠ some (reads + 1)) :
    SetWithinTurn moment reads segmentSize rest ↔
      SetWithinTurn moment (reads + 2) segmentSize (rest.drop segmentSize) := by
  have hlength (turn : ℕ) : (turn + 1) * segmentSize < rest.length ↔
      turn * segmentSize < (rest.drop segmentSize).length := by
    rw [List.length_drop, Nat.add_mul, Nat.one_mul]
    omega
  constructor
  · rintro ⟨turn, hturn, hmoment⟩
    cases turn with
    | zero => exact absurd hmoment (by simpa using hnot)
    | succ turn => exact ⟨turn, (hlength turn).mp hturn, by rw [hmoment]; congr 1; omega⟩
  · rintro ⟨turn, hturn, hmoment⟩
    exact ⟨turn + 1, (hlength turn).mpr hturn, by rw [hmoment]; congr 1; omega⟩

/-! ## Turns of the loop -/

/-- The turns of a loop that returns, from a source, a sink and a token. -/
inductive Loops (S : RowSource R σ) (map : ColumnMap R R') (K : RowSink R' τ) :
    σ → τ → CancelToken → Transferred R' σ τ → Prop where
  | cancelled : t.isCancelled = true → Loops S map K s k t (finishTransfer map K s k t.read true)
  | failed {s t} : S.nextChunk s t.read = (.error e, s', t') →
      Loops S map K s k t ⟨.error e, [], [], s', k, t'⟩
  | done {t} : t.isCancelled = false → S.nextChunk s t.read = (.ok none, s', t') →
      Loops S map K s k t (finishTransfer map K s' k t' false)
  | refused : S.nextChunk s t.read = (.ok (some chunk), s', t') →
      K.writeChunk k (chunk.map map.project) = (.error e, k') →
      Loops S map K s k t ⟨.error e, [chunk.map map.project], [], s', k', t'⟩
  | turn {t tail} : S.nextChunk s t.read = (.ok (some chunk), s', t') →
      K.writeChunk k (chunk.map map.project) = (.ok n, k') → Loops S map K s' k' t' tail →
      Loops S map K s k t
        { tail with chunks := chunk.map map.project :: tail.chunks, progress := progress }

theorem loops_of_transferLoop
    (hrun : transferLoop S map K total fuel source sink token rowsDone = some run) :
    Loops S map K source sink token run := by
  induction fuel generalizing source sink token rowsDone run with
  | zero => cases hrun
  | succ fuel ih =>
    rw [transferLoop] at hrun
    split at hrun
    next hset =>
      cases hrun
      exact .cancelled hset
    next hunset =>
      split at hrun
      next hnext =>
        cases hrun
        exact .failed hnext
      next hnext =>
        cases hrun
        exact .done (Bool.eq_false_of_not_eq_true hunset) hnext
      next hnext =>
        dsimp only at hrun
        split at hrun
        next hwrite =>
          cases hrun
          exact .refused hnext hwrite
        next hwrite =>
          obtain ⟨tail, htail, rfl⟩ := Option.map_eq_some_iff.mp hrun
          exact .turn hnext hwrite (ih htail)

/-! ## Completed runs -/

/-- The sink takes these chunks one after the other. -/
inductive Fed (K : RowSink R' τ) : τ → List (List R') → τ → Prop where
  | nil {sink : τ} : Fed K sink [] sink
  | cons {sink sink' sink'' : τ} {n : ℕ} {chunk : List R'} {chunks : List (List R')} :
      K.writeChunk sink chunk = (.ok n, sink') → Fed K sink' chunks sink'' →
        Fed K sink (chunk :: chunks) sink''

theorem chunks_finishTransfer (source : σ) (sink : τ) (token : CancelToken) (cancelled : Bool) :
    (finishTransfer map K source sink token cancelled).chunks = [] := by
  unfold finishTransfer
  split <;> rfl

/-- A completed loop has handed over every row that was left exactly if the token
was not set within a turn. -/
theorem completed_loop_iff (hS : Delivers S segmentSize I) (hsource : I source rest)
    (hrun : Loops S map K source sink token run)
    (hresult : run.result = .ok report) (hcompleted : report.outcome = .completed) :
    run.chunks.flatten = rest.map map.project ↔
      ¬ SetWithinTurn token.moment token.reads segmentSize rest := by
  induction hrun generalizing rest with
  | cancelled =>
    unfold finishTransfer at hresult
    split at hresult
    · cases hresult
    · cases hresult
      cases hcompleted
  | failed | refused => cases hresult
  | @done _ _ _ _ token hpipeline hnext =>
    rw [chunks_finishTransfer]
    obtain ⟨-, rfl | ⟨hcancelled, hrest, -⟩⟩ | ⟨⟨⟩, -⟩ := hS.next hsource hnext
    · -- Nothing is left, and nothing is given.
      simp [SetWithinTurn]
    · -- The source saw a token that the pipeline had not seen.
      have hset : SetWithinTurn token.moment token.reads segmentSize rest := by
        obtain ⟨m, hmoment, hm⟩ := CancelToken.isCancelled_iff.mp hcancelled
        have hlate : ¬ m ≤ token.reads := fun h =>
          Bool.eq_false_iff.mp hpipeline (CancelToken.isCancelled_iff.mpr ⟨m, hmoment, h⟩)
        refine ⟨0, by simpa using List.length_pos_iff.mpr hrest, hmoment.trans ?_⟩
        rw [CancelToken.reads_read] at hm
        congr 1
        omega
      simpa [hset] using hrest
  | @turn _ _ _ _ _ _ _ _ token tail hnext _ _ ih =>
    obtain ⟨⟨⟩, -⟩ | ⟨hchunk, -, hcancelled, rfl, hs'⟩ := hS.next hsource hnext
    cases hchunk
    have hnot : token.moment ≠ some (token.reads + 1) := fun hmoment =>
      Bool.eq_false_iff.mp hcancelled (CancelToken.isCancelled_iff.mpr ⟨_, hmoment, le_rfl⟩)
    have hrec : tail.chunks.flatten = (rest.drop segmentSize).map map.project ↔
        ¬ SetWithinTurn token.moment (token.reads + 2) segmentSize (rest.drop segmentSize) :=
      ih hs' hresult
    rw [setWithinTurn_drop hnot, ← hrec]
    have hmap : rest.map map.project = (rest.take segmentSize).map map.project ++
        (rest.drop segmentSize).map map.project := by
      rw [← List.map_append, List.take_append_drop]
    rw [List.flatten_cons, hmap, List.append_cancel_left_eq]

/-- A loop that the pipeline's own check ends reports `Cancelled`. -/
theorem cancelled_loop (hS : Delivers S segmentSize I) (hsource : I source rest)
    (hrun : Loops S map K source sink token run) (hresult : run.result = .ok report)
    (hset : SetAtCheck token.moment token.reads segmentSize rest) :
    report.outcome = .cancelled := by
  induction hrun generalizing rest with
  | cancelled =>
    unfold finishTransfer at hresult
    split at hresult
    · cases hresult
    · cases hresult
      rfl
  | failed | refused => cases hresult
  | @done _ _ _ _ token hpipeline hnext =>
    -- The token would have been seen in front of this turn, or would be behind it.
    obtain ⟨m, hmoment, hearly | ⟨turn, hturn, rfl⟩⟩ := hset
    · exact absurd (CancelToken.isCancelled_iff.mpr ⟨m, hmoment, hearly⟩)
        (Bool.eq_false_iff.mp hpipeline)
    · obtain ⟨-, rfl | ⟨hcancelled, -, -⟩⟩ | ⟨⟨⟩, -⟩ := hS.next hsource hnext
      · cases hturn
      · obtain ⟨m, hm, hle⟩ := CancelToken.isCancelled_iff.mp hcancelled
        cases hmoment.symm.trans hm
        rw [CancelToken.reads_read] at hle
        omega
  | @turn _ _ _ _ _ _ _ _ token tail hnext _ _ ih =>
    obtain ⟨⟨⟩, -⟩ | ⟨-, -, hcancelled, rfl, hs'⟩ := hS.next hsource hnext
    refine ih hs' hresult ?_
    obtain ⟨m, hmoment, hearly | ⟨turn, hturn, rfl⟩⟩ := hset
    · exact absurd (CancelToken.isCancelled_iff.mpr ⟨m, hmoment, hearly⟩)
        (Bool.eq_false_iff.mp (token.later_read.not_isCancelled hcancelled))
    · refine ⟨_, hmoment, ?_⟩
      cases turn with
      | zero => exact .inl le_rfl
      | succ turn =>
        refine .inr ⟨turn, ?_, by simp only [CancelToken.reads_read]; omega⟩
        rw [Nat.add_mul, Nat.one_mul] at hturn
        rw [List.length_drop]
        omega

/-! ## The loop ends -/

/-- Enough turns for every row that is left end the loop. -/
theorem transferLoop_isSome (hS : Delivers S segmentSize I) (hsegment : 0 < segmentSize)
    (hsource : I source rest) (hfuel : rest.length < fuel) :
    (transferLoop S map K total fuel source sink token rowsDone).isSome := by
  induction fuel generalizing source sink token rowsDone rest with
  | zero => omega
  | succ fuel ih =>
    rw [transferLoop]
    split
    · rfl
    split
    · rfl
    · rfl
    next hnext =>
      obtain ⟨⟨⟩, -⟩ | ⟨-, hrest, -, -, hs'⟩ := hS.next hsource hnext
      dsimp only
      split
      · rfl
      · have hpos := List.length_pos_iff.mpr hrest
        rw [Option.isSome_map]
        exact ih hs' (by rw [List.length_drop]; omega)

/-- **Completed runs.** A run of a source that delivers ends, and if it completes
it has handed over every row exactly if the token was not set within a turn; one
that the pipeline's own check ends reports `Cancelled`. -/
theorem completed_iff_of_delivers (hS : Delivers S segmentSize I) (hsegment : 0 < segmentSize)
    (hsource : I source rows) (sink : τ) (token : CancelToken) (hfuel : rows.length < fuel) :
    ∃ run, runTransfer S map K fuel source sink token = some run ∧
      ∀ report, run.result = .ok report →
        (report.outcome = .completed → (run.chunks.flatten = rows.map map.project ↔
          ¬ SetWithinTurn token.moment token.reads segmentSize rows)) ∧
        (SetAtCheck token.moment token.reads segmentSize rows → report.outcome = .cancelled) := by
  unfold runTransfer
  split
  next => exact ⟨_, rfl, fun report hresult => by cases hresult⟩
  next sink' _ =>
    have hsome : (transferLoop S map K (S.estimatedTotal source) fuel source sink' token 0).isSome :=
      transferLoop_isSome hS hsegment hsource hfuel
    obtain ⟨run, hrun⟩ := Option.isSome_iff_exists.mp hsome
    have hloops := loops_of_transferLoop hrun
    exact ⟨run, hrun, fun report hresult => ⟨completed_loop_iff hS hsource hloops hresult,
      cancelled_loop hS hsource hloops hresult⟩⟩

/-! ## Runs that are not cancelled -/

/-- A source reads the token at most once for a chunk. -/
def ReadsToken (S : RowSource R σ) : Prop :=
  ∀ s token, (S.nextChunk s token).2.2 = token ∨ (S.nextChunk s token).2.2 = token.read

theorem ReadsToken.later (hS : ReadsToken S) {s s' : σ}
    {result : Except TransferError (Option (List R))}
    (h : S.nextChunk s token = (result, s', token')) : token.Later token' := by
  have hread := hS s token
  rw [h] at hread
  rcases hread with rfl | rfl
  · exact .refl _
  · exact token.later_read

theorem token_finishTransfer (source : σ) (sink : τ) (token : CancelToken) (cancelled : Bool) :
    (finishTransfer map K source sink token cancelled).token = token := by
  unfold finishTransfer
  split <;> rfl

theorem later_loop (hS : ReadsToken S)
    (hrun : Loops S map K source sink token run) : token.Later run.token := by
  induction hrun with
  | cancelled =>
    rw [token_finishTransfer]
    exact CancelToken.later_read _
  | failed hnext => exact (CancelToken.later_read _).trans (hS.later hnext)
  | done _ hnext =>
    rw [token_finishTransfer]
    exact (CancelToken.later_read _).trans (hS.later hnext)
  | refused hnext => exact (CancelToken.later_read _).trans (hS.later hnext)
  | turn hnext _ _ ih => exact ((CancelToken.later_read _).trans (hS.later hnext)).trans ih

/-- A run hands the token on. -/
theorem later_runTransfer (hS : ReadsToken S)
    (hrun : runTransfer S map K fuel source sink token = some run) : token.Later run.token := by
  unfold runTransfer at hrun
  split at hrun
  · cases hrun
    exact .refl _
  · exact later_loop hS (loops_of_transferLoop hrun)

variable (hS : Delivers S segmentSize I)
include hS

/-- A loop that returns with the token unset has fed the sink every row that was
left. -/
theorem uncancelled_loop (hsource : I source rest) (hrun : Loops S map K source sink token run)
    (hresult : run.result = .ok report) (hunset : run.token.isCancelled = false) :
    run.chunks.flatten = rest.map map.project ∧
      ∃ sink' own, Fed K sink run.chunks sink' ∧ K.finish sink' = (.ok own, run.sink) ∧
        report = { own with warnings := own.warnings ++ map.warnings } := by
  induction hrun generalizing rest with
  | cancelled hset =>
    rw [token_finishTransfer] at hunset
    rw [(CancelToken.later_read _).not_isCancelled hunset] at hset
    cases hset
  | failed | refused => cases hresult
  | done _ hnext =>
    obtain ⟨-, rfl | ⟨hcancelled, -, rfl⟩⟩ | ⟨⟨⟩, -⟩ := hS.next hsource hnext
    · refine ⟨by simp [chunks_finishTransfer], ?_⟩
      unfold finishTransfer at hresult ⊢
      split at hresult
      · cases hresult
      · rename_i own _ hfinish
        exact ⟨_, own, .nil, hfinish, (Except.ok.inj hresult).symm⟩
    · -- The source would have left a token that is set.
      rw [token_finishTransfer] at hunset
      rw [(CancelToken.later_read _).not_isCancelled hunset] at hcancelled
      cases hcancelled
  | turn hnext hwrite _ ih =>
    obtain ⟨⟨⟩, -⟩ | ⟨hchunk, -, -, -, hs'⟩ := hS.next hsource hnext
    cases hchunk
    obtain ⟨hchunks, sink', own, hfed, hfinish⟩ : _ := ih hs' hresult hunset
    refine ⟨?_, sink', own, .cons hwrite hfed, hfinish⟩
    rw [List.flatten_cons, hchunks, ← List.map_append, List.take_append_drop]

/-- **Runs that are not cancelled.** A run that returns with the token unset has
fed the sink every row. -/
theorem uncancelled_run (hsource : I source rows)
    (hrun : runTransfer S map K fuel source sink token = some run)
    (hresult : run.result = .ok report) (hunset : run.token.isCancelled = false) :
    run.chunks.flatten = rows.map map.project ∧
      ∃ sink₀ sink' own, K.begin sink = (.ok (), sink₀) ∧ Fed K sink₀ run.chunks sink' ∧
        K.finish sink' = (.ok own, run.sink) ∧
        report = { own with warnings := own.warnings ++ map.warnings } := by
  unfold runTransfer at hrun
  split at hrun
  next =>
    cases hrun
    cases hresult
  next sink₀ hbegin =>
    obtain ⟨hchunks, sink', own, hfed⟩ :=
      uncancelled_loop hS hsource (loops_of_transferLoop hrun) hresult hunset
    exact ⟨hchunks, sink₀, sink', own, hbegin, hfed⟩

/-! ## Runs that cannot fail -/

/-- The source answers every request in a state of `I`. -/
def Answers (S : RowSource R σ) (I : σ → List R → Prop) : Prop :=
  ∀ {s rest token}, I s rest → ∃ chunk s' token', S.nextChunk s token = (.ok chunk, s', token')

/-- The sink accepts everything in a state of `J`. -/
structure Accepts (K : RowSink R' τ) (J : τ → Prop) : Prop where
  write : ∀ {sink} rows, J sink → ∃ n sink', K.writeChunk sink rows = (.ok n, sink') ∧ J sink'
  finish : ∀ {sink}, J sink → ∃ report sink', K.finish sink = (.ok report, sink')

theorem loop_ok {J : τ → Prop} (hanswers : Answers S I)
    (hK : Accepts K J) (hsource : I source rest) (hsink : J sink)
    (hrun : Loops S map K source sink token run) :
    ∃ report, run.result = .ok report := by
  have hfinish (source' : σ) (sink' : τ) (token' : CancelToken) (cancelled : Bool)
      (hsink' : J sink') :
      ∃ report, (finishTransfer map K source' sink' token' cancelled).result = .ok report := by
    obtain ⟨report, sink'', hreport⟩ := hK.finish hsink'
    unfold finishTransfer
    rw [hreport]
    exact ⟨_, rfl⟩
  induction hrun generalizing rest with
  | cancelled | done => exact hfinish _ _ _ _ hsink
  | @failed _ _ _ _ source token hnext =>
    obtain ⟨chunk, s', token', hanswer⟩ :
        ∃ chunk s' token', S.nextChunk source token.read = (.ok chunk, s', token') :=
      hanswers hsource
    cases hnext.symm.trans hanswer
  | refused _ hwrite =>
    obtain ⟨n, sink', hwritten, -⟩ := hK.write _ hsink
    cases hwrite.symm.trans hwritten
  | turn hnext hwrite _ ih =>
    obtain ⟨⟨⟩, -⟩ | ⟨-, -, -, -, hs'⟩ := hS.next hsource hnext
    obtain ⟨n, sink', hwritten, hsink'⟩ := hK.write _ hsink
    cases hwrite.symm.trans hwritten
    exact ih hs' hsink'

/-- A run of a source that answers into a sink that accepts, with a token that is
never set, returns. -/
theorem run_ok {J : τ → Prop} (hanswers : Answers S I)
    (hK : Accepts K J) (hsegment : 0 < segmentSize) {sink₀ : τ} (token : CancelToken)
    (hsource : I source rows) (hbegin : K.begin sink = (.ok (), sink₀)) (hsink : J sink₀)
    (hfuel : rows.length < fuel) :
    ∃ run report, runTransfer S map K fuel source sink token = some run ∧
      run.result = .ok report := by
  have hsome : (transferLoop S map K (S.estimatedTotal source) fuel source sink₀ token 0).isSome :=
    transferLoop_isSome hS hsegment hsource hfuel
  obtain ⟨run, hrun⟩ := Option.isSome_iff_exists.mp hsome
  obtain ⟨report, hreport⟩ := loop_ok hS hanswers hK hsource hsink (loops_of_transferLoop hrun)
  refine ⟨run, report, ?_, hreport⟩
  simp [runTransfer, hbegin, hrun]

omit hS

end Dbflux.Transfer

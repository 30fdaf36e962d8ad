import Dbflux.Delimited.ReaderPages
import Dbflux.Lib.Transition

/-!
# The buffered reader of a byte source

`ByteSourceReader` (`dbflux_byte_source/src/lib.rs`, lines 258–390) reads a
`ByteSource` through `Read` and `Seek`. It keeps one block of the source and, once it
has been asked for, the length. A call that fails leaves the fields it had already
written, and the reader can be used again.

A `usize` has 64 bits. A read returns the bytes it copies.

Results:
* `calls_follow_cursor`: whatever is called, and whichever calls of the source fail, the
  reader behaves like a position in the content.
-/

namespace Dbflux.ByteSource

open Lib Delimited List

/-! ## Model -/

/-- The errors of a call, with what their messages are made of. -/
inductive IoError where
  | source (e : ReadError)
  | unexpectedEof (received expected offset : ℕ)
  | invalidInput
  deriving DecidableEq, Repr

/-- `io::SeekFrom`. -/
inductive SeekFrom where
  | start (offset : UInt64)
  | current (delta : ℤ)
  | fromEnd (delta : ℤ)
  deriving DecidableEq

/-- `ByteSourceReader` (lines 258–264). -/
structure ByteSourceReader where
  source : Source
  position : ℕ
  length : Option ℕ
  blockStart : ℕ
  block : Bytes

abbrev CallM := EStateM IoError ByteSourceReader

namespace ByteSourceReader

/-- `READ_AHEAD_BLOCK` (line 246). -/
def readAheadBlock : ℕ := 64 * 1024

/-- `new` (lines 268–276). -/
def new (source : Source) : ByteSourceReader := ⟨source, 0, none, 0, []⟩

def onSource {α : Type} (m : SourceM α) : CallM α := fun r =>
  match m r.source with
  | .ok a source => .ok a { r with source }
  | .error e source => .error (.source e) { r with source }

/-- `length` (lines 287–296). -/
def knownLength : CallM ℕ := do
  match (← get).length with
  | some length => return length
  | none =>
    let length ← onSource Source.byteLength
    modify fun r => { r with length := some length }
    return length

/-- `buffered` (lines 298–304). -/
def buffered (r : ByteSourceReader) : Bytes :=
  if r.blockStart ≤ r.position then r.block.drop (r.position - r.blockStart) else []

/-- `fill_block` (lines 306–340). -/
def fillBlock (wanted : ℕ) : CallM Unit := do
  let length ← knownLength
  modify fun r => { r with blockStart := r.position, block := [] }
  let position := (← get).position
  if position < length then
    let finish := min (min (position + max wanted readAheadBlock) u64Max) length
    let bytes ← onSource (Source.readRange position finish)
    if bytes.length < finish - position then
      throw (.unexpectedEof bytes.length (finish - position) position)
    modify fun r => { r with block := bytes }

/-- The rest of `read` behind the filling (lines 353–363). -/
def copyBuffered (size : ℕ) : CallM Bytes := do
  let bytes := (← get).buffered.take size
  modify fun r => { r with position := min (r.position + bytes.length) u64Max }
  return bytes

/-- `read` (lines 344–364) into a buffer of `size` bytes. -/
def read (size : ℕ) : CallM Bytes := do
  if size = 0 then return []
  if (← get).buffered.isEmpty then fillBlock size
  copyBuffered size

/-- `u64::checked_add_signed`. -/
def checkedAddSigned (base : ℕ) (delta : ℤ) : Option ℕ :=
  if 0 ≤ base + delta ∧ base + delta ≤ u64Max then some (base + delta).toNat else none

/-- The position that `seek` looks for (lines 369–373). -/
def sought : SeekFrom → CallM (Option ℕ)
  | .start offset => return some offset.toNat
  | .current delta => return checkedAddSigned (← get).position delta
  | .fromEnd delta => return checkedAddSigned (← knownLength) delta

/-- `seek` (lines 368–385). -/
def seek (target : SeekFrom) : CallM ℕ := do
  match ← sought target with
  | none => throw .invalidInput
  | some position =>
    modify fun r => { r with position }
    return position

end ByteSourceReader

inductive Call where
  | read (size : ℕ)
  | seek (target : SeekFrom)
  deriving DecidableEq

inductive Outcome where
  | bytes (bytes : Bytes)
  | position (position : ℕ)
  deriving DecidableEq

def Call.run : Call → CallM Outcome
  | .read size => return .bytes (← ByteSourceReader.read size)
  | .seek target => return .position (← ByteSourceReader.seek target)

/-- A call, the result it gives and the reader it leaves. -/
def exec (r : ByteSourceReader) (call : Call) :
    Option (ByteSourceReader × Except IoError Outcome) :=
  match call.run r with
  | .ok outcome r => some (r, .ok outcome)
  | .error e r => some (r, .error e)

/-! ## A position in the content -/

/-- Where a seek leads. -/
def SeekFrom.goal (length position : ℕ) : SeekFrom → ℤ
  | .start offset => offset.toNat
  | .current delta => position + delta
  | .fromEnd delta => length + delta

/-- What may be answered at a position, and the position behind the call. -/
inductive CursorStep (content : Bytes) : ℕ → Call × Except IoError Outcome → ℕ → Prop
  | read {position size : ℕ} {bytes : Bytes} : bytes <+: content.drop position →
      bytes.length ≤ size → (bytes = [] → size = 0 ∨ content.length ≤ position) →
      CursorStep content position (.read size, .ok (.bytes bytes)) (position + bytes.length)
  | seek {position reached : ℕ} {target : SeekFrom} :
      reached = target.goal content.length position →
      CursorStep content position (.seek target, .ok (.position reached)) reached
  | failed {position : ℕ} {call : Call} {e : IoError} :
      CursorStep content position (call, .error e) position

/-- The reader stands at `position`, and what it keeps is the content's. -/
structure Serves (content : Bytes) (position : ℕ) (r : ByteSourceReader) : Prop where
  content_eq : r.source.content = content
  position_eq : r.position = position
  position_le : position ≤ u64Max
  length_eq : ∀ n, r.length = some n → n = content.length
  block_isPrefix : r.block <+: content.drop r.blockStart

/-- A call took a step of the cursor. -/
def Follows (content : Bytes) (position : ℕ) (call : Call) (outcome : Outcome)
    (r : ByteSourceReader) : Prop :=
  ∃ reached, CursorStep content position (call, .ok outcome) reached ∧ Serves content reached r

/-! ## Calls -/

namespace ByteSourceReader

variable {content : Bytes} {position : ℕ} {r : ByteSourceReader} (h : Serves content position r)
include h

theorem onSource_ensures {α : Type} {m : SourceM α} {P : α → Prop}
    (hm : Ensures m r.source (fun a t => t.content = r.source.content ∧ P a)
      (fun t => t.content = r.source.content)) :
    Ensures (onSource m) r (fun a t => P a ∧ Serves content position t ∧
      t.blockStart = r.blockStart) (Serves content position) := by
  unfold Ensures at *
  unfold onSource
  cases hrun : m r.source with
  | ok a source =>
    rw [hrun] at hm
    exact ⟨hm.2, { h with content_eq := hm.1.trans h.content_eq }, rfl⟩
  | error e source =>
    rw [hrun] at hm
    exact { h with content_eq := hm.trans h.content_eq }

theorem knownLength_ensures : Ensures knownLength r
    (fun n t => n = content.length ∧ Serves content position t) (Serves content position) := by
  refine .bind (.get ?_)
  cases hlength : r.length with
  | some n => exact .pure ⟨h.length_eq n hlength, h⟩
  | none =>
    refine (onSource_ensures h (PagedReader.byteLength_ensures r.source)).andThen ?_
    rintro n t ⟨rfl, ht, -⟩
    rw [h.content_eq]
    exact .bind (.modify (.pure ⟨rfl, { ht with length_eq := by simp }⟩))

/-- A block that is filled starts at the position, and is empty only at the end. -/
theorem fillBlock_ensures (wanted : ℕ) : Ensures (fillBlock wanted) r
    (fun _ t => Serves content position t ∧ t.blockStart = position ∧
      (t.block = [] → content.length ≤ position)) (Serves content position) := by
  refine (knownLength_ensures h).andThen ?_
  rintro _ t ⟨rfl, ht⟩
  refine .bind (.modify (.bind (.get ?_)))
  have hcleared : Serves content position { t with blockStart := t.position, block := [] } :=
    { ht with block_isPrefix := nil_prefix }
  dsimp only
  rw [ht.position_eq] at hcleared ⊢
  split_ifs with hbefore
  · generalize hfinish :
      min (min (position + max wanted readAheadBlock) u64Max) content.length = finish
    have hlt : position < finish := by
      have hcontent := ht.content_eq ▸ t.source.length_lt
      simp only [readAheadBlock, u64Max] at hfinish
      omega
    refine (onSource_ensures hcleared (Source.readRange_ensures _ position finish)).andThen ?_
    rintro bytes u ⟨hbytes, hu, hstart⟩
    rw [hcleared.content_eq, Source.slice_eq _ hlt.le (hfinish ▸ Nat.min_le_right _ _)] at hbytes
    split_ifs with hshort
    · exact .bind (.throw hu)
    · refine .bind (.pure (.modify ⟨{ hu with block_isPrefix := ?_ }, hstart, fun hnil => ?_⟩))
      · exact hstart ▸ hbytes.trans ( take_prefix _ _)
      · have hnil : bytes = [] := hnil
        simp only [hnil, length_nil] at hshort
        omega
  · exact .pure ⟨hcleared, rfl, fun _ => not_lt.mp hbefore⟩

theorem buffered_isPrefix : r.buffered <+: content.drop position := by
  rw [buffered, h.position_eq]
  split_ifs with hle
  · have hdrop := h.block_isPrefix.drop (position - r.blockStart)
    rwa [drop_drop, Nat.add_sub_cancel' hle] at hdrop
  · exact nil_prefix

theorem copyBuffered_ensures {size : ℕ} (hfilled : r.buffered = [] → content.length ≤ position) :
    Ensures (copyBuffered size) r (Follows content position (.read size) ∘ .bytes)
      (Serves content position) := by
  refine .bind (.get (.bind (.modify (.pure ?_))))
  have hbytes := ( take_prefix size r.buffered).trans (buffered_isPrefix h)
  have hsum : position + (r.buffered.take size).length ≤ u64Max := by
    have hcontent := h.content_eq ▸ r.source.length_lt
    have hlength := hbytes.length_le
    have hle := h.position_le
    rw [length_drop] at hlength
    simp only [u64Max] at hle ⊢
    omega
  refine ⟨_, .read hbytes (length_take_le _ _) ?_, { h with position_eq := ?_, position_le := hsum }⟩
  · exact fun hnil => (take_eq_nil_iff.mp hnil).imp id hfilled
  · rw [h.position_eq, Nat.min_eq_left hsum]

theorem read_ensures (size : ℕ) : Ensures (read size) r
    (Follows content position (.read size) ∘ .bytes) (Serves content position) := by
  unfold read
  split_ifs with hsize
  · exact .pure ⟨_, .read nil_prefix (Nat.zero_le _) fun _ => .inl hsize, h⟩
  · refine .bind (.get ?_)
    split_ifs with hempty
    · refine (fillBlock_ensures h size).andThen ?_
      rintro _ t ⟨ht, hstart, hend⟩
      exact copyBuffered_ensures ht fun hnil => hend (by
        simpa [buffered, hstart, ht.position_eq] using hnil)
    · exact copyBuffered_ensures h fun hnil => absurd hnil (by simpa using hempty)

omit h in
theorem checkedAddSigned_eq_some {base reached : ℕ} {delta : ℤ}
    (hsome : checkedAddSigned base delta = some reached) :
    reached = base + delta ∧ reached ≤ u64Max := by
  simp only [checkedAddSigned, Option.ite_none_right_eq_some, Option.some.injEq] at hsome
  omega

theorem sought_ensures (target : SeekFrom) : Ensures (sought target) r
    (fun found t => Serves content position t ∧ ∀ reached, found = some reached →
      reached = target.goal content.length position ∧ reached ≤ u64Max)
    (Serves content position) := by
  cases target with
  | start offset =>
    refine .pure ⟨h, ?_⟩
    rintro _ ⟨⟩
    exact ⟨rfl, Nat.le_sub_one_of_lt offset.toNat_lt⟩
  | current delta =>
    refine .bind (.get (.pure ⟨h, ?_⟩))
    rw [h.position_eq]
    exact fun reached => checkedAddSigned_eq_some
  | fromEnd delta =>
    refine (knownLength_ensures h).andThen ?_
    rintro _ t ⟨rfl, ht⟩
    exact .pure ⟨ht, fun reached => checkedAddSigned_eq_some⟩

theorem seek_ensures (target : SeekFrom) : Ensures (seek target) r
    (Follows content position (.seek target) ∘ .position) (Serves content position) := by
  refine (sought_ensures h target).andThen ?_
  rintro (_ | reached) t ⟨ht, hgoal⟩
  · exact .throw ht
  · obtain ⟨hreached, hle⟩ := hgoal reached rfl
    exact .bind (.modify (.pure
      ⟨_, .seek hreached, { ht with position_eq := rfl, position_le := hle }⟩))

end ByteSourceReader

/-! ## Runs -/

variable {content : Bytes} {position : ℕ} {r : ByteSourceReader}

/-- Every call is a step of the cursor. -/
theorem exec_step (h : Serves content position r) (call : Call) :
    ∃ r' result position', exec r call = some (r', result) ∧
      CursorStep content position (call, result) position' ∧ Serves content position' r' := by
  have hcall : Ensures call.run r (Follows content position call) (Serves content position) := by
    cases call with
    | read size => exact (ByteSourceReader.read_ensures h size).andThen fun _ _ ht => .pure ht
    | seek target => exact (ByteSourceReader.seek_ensures h target).andThen fun _ _ ht => .pure ht
  unfold exec
  cases hrun : call.run r with
  | ok outcome t =>
    obtain ⟨position', hstep, ht⟩ := hcall.ok hrun
    exact ⟨t, _, position', rfl, hstep, ht⟩
  | error e t => exact ⟨t, _, position, rfl, .failed, hcall.error hrun⟩

theorem exec_run (h : Serves content position r) (calls : List Call) :
    ∃ r' trace, runInputs exec r calls = some (r', trace) ∧ trace.map Prod.fst = calls ∧
      Run (CursorStep content) position trace r'.position := by
  induction calls generalizing position r with
  | nil => exact ⟨r, [], rfl, rfl, h.position_eq ▸ .nil _⟩
  | cons call calls ih =>
    obtain ⟨s, result, reached, hexec, hstep, hs⟩ := exec_step h call
    obtain ⟨r', trace, hruns, hcalls, hrun⟩ := ih hs
    refine ⟨r', (call, result) :: trace, ?_, congrArg (call :: ·) hcalls, .cons hstep hrun⟩
    simp [runInputs, hexec, hruns]

/-- **The buffered reader is the file.** Any sequence of calls on a new reader runs, and
is a run of the cursor from the start of the content: a call that fails stays where it
is, and the calls behind it go on from there. -/
theorem calls_follow_cursor (source : Source) (calls : List Call) :
    ∃ r trace, runInputs exec (.new source) calls = some (r, trace) ∧
      trace.map Prod.fst = calls ∧ Run (CursorStep source.content) 0 trace r.position :=
  exec_run ⟨rfl, rfl, Nat.zero_le _, by rintro _ ⟨⟩, nil_prefix⟩ calls

end Dbflux.ByteSource

import Mathlib

/-!
# Framed messages

Model of `send_msg` and `recv_msg` of `dbflux_ipc/src/framing.rs` (lines 5–40). A
stream is the list of its bytes, and a reader has beside it the sizes of the reads
to come. Errors of the stream itself are left out: `send_msg` succeeds or refuses a
message, and what it wrote is there for the reader.

Results:
* `readUpTo_spec`: however the reads are split, the bytes wanted are read and no
  others.
* `recvMsgs_sent_iff`: messages sent over one stream are received, in order and
  with nothing left over, if every encoding has fewer than `2 ^ 32` bytes, and only
  then.
-/

namespace Dbflux.Ipc

open List

/-- `MAX_MSG_SIZE`. -/
def maxMsgSize : ℕ := 16 * 1024 * 1024

inductive IoError where
  | other (message : String)
  | unexpectedEof (message : String)

/-- `postcard`, which decodes what it encoded. -/
structure Codec (M : Type) where
  encode : M → Except String (List UInt8)
  decode : List UInt8 → Except String M
  decode_encode {msg : M} {bytes : List UInt8} : encode msg = .ok bytes → decode bytes = .ok msg

/-- A message is not decoded from less than its encoding. -/
def Codec.NeedsAll {M : Type} (codec : Codec M) : Prop :=
  ∀ (msg : M) (bytes : List UInt8) (k : ℕ), codec.encode msg = .ok bytes → k < bytes.length →
    codec.decode (bytes.take k) ≠ .ok msg

/-- The length of the encoding fits its header. -/
def Codec.Fits {M : Type} (codec : Codec M) (msg : M) : Prop :=
  ∀ bytes, codec.encode msg = .ok bytes → bytes.length < 2 ^ 32

/-- A reader; the next read returns at most one byte more than the first of `sizes`. -/
structure Reader where
  bytes : List UInt8
  sizes : List ℕ

/-- Reads until `want` bytes are there or a read returns none, as `read_exact` and
`take(want).read_to_end` do. -/
def readUpTo (want : ℕ) (bytes : List UInt8) : List ℕ → List UInt8 × Reader
  | [] => (bytes.take want, ⟨bytes.drop want, []⟩)
  | size :: sizes =>
    if want = 0 ∨ bytes = [] then ([], ⟨bytes, size :: sizes⟩)
    else
      let count := min want (size + 1)
      let (buf, reader) := readUpTo (want - count) (bytes.drop count) sizes
      (bytes.take count ++ buf, reader)

/-- `u32::to_le_bytes`. -/
def toLeBytes (len : ℕ) : List UInt8 :=
  [len, len / 2 ^ 8, len / 2 ^ 16, len / 2 ^ 24].map UInt8.ofNat

/-- `u32::from_le_bytes`. -/
def fromLeBytes (bytes : List UInt8) : ℕ :=
  bytes.foldr (fun byte high => byte.toNat + 2 ^ 8 * high) 0

variable {M : Type} (codec : Codec M)

/-- `send_msg` (lines 7–19); the cast to `u32` keeps the low 32 bits of the length. -/
def sendMsg (writer : List UInt8) (msg : M) : Except IoError (List UInt8) :=
  match codec.encode msg with
  | .error message => .error (.other message)
  | .ok bytes =>
    let len := bytes.length % 2 ^ 32
    if len > maxMsgSize then .error (.other "message too large")
    else .ok (writer ++ toLeBytes len ++ bytes)

/-- `recv_msg` (lines 21–40). -/
def recvMsg (reader : Reader) : Except IoError (M × Reader) :=
  let (lenBytes, reader) := readUpTo 4 reader.bytes reader.sizes
  if lenBytes.length < 4 then .error (.unexpectedEof "failed to fill whole buffer")
  else
    let len := fromLeBytes lenBytes
    if len > maxMsgSize then .error (.other "message too large")
    else
      let (buf, reader) := readUpTo len reader.bytes reader.sizes
      if buf.length ≠ len then
        .error (.unexpectedEof "framed message body shorter than announced length")
      else ((codec.decode buf).mapError .other).map (·, reader)

/-- `recv_msg`, `count` times on one stream. -/
def recvMsgs : ℕ → Reader → Except IoError (List M × Reader)
  | 0, reader => .ok ([], reader)
  | count + 1, reader => do
    let (msg, reader) ← recvMsg codec reader
    let (msgs, reader) ← recvMsgs count reader
    return (msg :: msgs, reader)

/-! ## One frame -/

theorem readUpTo_spec (want : ℕ) (bytes : List UInt8) (sizes : List ℕ) :
    (readUpTo want bytes sizes).1 = bytes.take want ∧
      (readUpTo want bytes sizes).2.bytes = bytes.drop want := by
  induction sizes generalizing want bytes with
  | nil => exact ⟨rfl, rfl⟩
  | cons size sizes ih =>
    rw [readUpTo]
    split
    · next hstop => rcases hstop with rfl | rfl <;> simp
    · obtain ⟨hbuf, hreader⟩ := ih (want - min want (size + 1)) (bytes.drop (min want (size + 1)))
      have hcount : min want (size + 1) + (want - min want (size + 1)) = want := by omega
      dsimp only
      rw [hbuf, hreader, ← take_add, drop_drop, hcount]
      exact ⟨rfl, rfl⟩

theorem fromLeBytes_toLeBytes {len : ℕ} (hlen : len < 2 ^ 32) :
    fromLeBytes (toLeBytes len) = len := by
  simp [fromLeBytes, toLeBytes]
  omega

/-- One frame: the body is as long as its header says. -/
theorem recvMsg_frame {len : ℕ} {tail : List UInt8} (sizes : List ℕ) (hlen : len ≤ maxMsgSize)
    (htail : len ≤ tail.length) : ∃ left, recvMsg codec ⟨toLeBytes len ++ tail, sizes⟩ =
      ((codec.decode (tail.take len)).mapError .other).map (·, ⟨tail.drop len, left⟩) := by
  obtain ⟨hheader, hrest⟩ := readUpTo_spec 4 (toLeBytes len ++ tail) sizes
  rcases hread : readUpTo 4 (toLeBytes len ++ tail) sizes with ⟨header, rest⟩
  rw [hread] at hheader hrest
  obtain ⟨hbuf, hleft⟩ := readUpTo_spec len rest.bytes rest.sizes
  rcases hbody : readUpTo len rest.bytes rest.sizes with ⟨buf, ⟨bytes, left⟩⟩
  rw [hbody] at hbuf hleft
  have hfour : (toLeBytes len).length = 4 := rfl
  obtain rfl : header = toLeBytes len := hheader.trans (take_left' hfour)
  have hbytes : rest.bytes = tail := hrest.trans (drop_left' hfour)
  obtain rfl : buf = tail.take len := hbuf.trans (by rw [hbytes])
  obtain rfl : bytes = tail.drop len := hleft.trans (by rw [hbytes])
  have hvalue := fromLeBytes_toLeBytes (lt_of_le_of_lt hlen (by decide : maxMsgSize < 2 ^ 32))
  refine ⟨left, ?_⟩
  simp only [recvMsg, hread, hfour, hvalue, hbody, lt_irrefl, if_false, not_lt.mpr hlen,
    length_take, min_eq_left htail, ne_eq, not_true]

/-! ## The messages of a stream -/

/-- What the frames of the messages look like on the stream. -/
inductive Framed : List M → List UInt8 → Prop
  | nil : Framed [] []
  | cons {msg : M} {msgs : List M} {bytes stream : List UInt8} :
    codec.encode msg = .ok bytes → bytes.length % 2 ^ 32 ≤ maxMsgSize → Framed msgs stream →
    Framed (msg :: msgs) (toLeBytes (bytes.length % 2 ^ 32) ++ (bytes ++ stream))

variable {codec} {msgs : List M} {stream : List UInt8}

theorem framed_of_sendMsg {writer : List UInt8}
    (hsend : msgs.foldlM (sendMsg codec) writer = .ok stream) :
    ∃ frames, stream = writer ++ frames ∧ Framed codec msgs frames := by
  induction msgs generalizing writer with
  | nil =>
    cases hsend
    exact ⟨[], (append_nil _).symm, .nil⟩
  | cons msg msgs ih =>
    rw [foldlM_cons, sendMsg] at hsend
    rcases hencode : codec.encode msg with _ | bytes
    · rw [hencode] at hsend
      cases hsend
    · rw [hencode] at hsend
      by_cases hlen : bytes.length % 2 ^ 32 > maxMsgSize
      · simp only [if_pos hlen] at hsend
        cases hsend
      · simp only [if_neg hlen] at hsend
        obtain ⟨frames, rfl, hframes⟩ := ih hsend
        exact ⟨_, by simp only [append_assoc], .cons hencode (not_lt.mp hlen) hframes⟩

theorem recvMsgs_succ_iff {count : ℕ} {reader next last : Reader} {msg received : M}
    (hrecv : recvMsg codec reader = .ok (received, next)) :
    recvMsgs codec (count + 1) reader = .ok (msg :: msgs, last) ↔
      received = msg ∧ recvMsgs codec count next = .ok (msgs, last) := by
  rw [recvMsgs, hrecv]
  rcases hrest : recvMsgs codec count next with _ | ⟨rest, final⟩ <;>
  simp [bind, Except.bind, pure, Except.pure, hrest, and_assoc]

theorem recvMsgs_framed (hstream : Framed codec msgs stream)
    (hfits : ∀ msg ∈ msgs, codec.Fits msg) (sizes : List ℕ) :
    ∃ left, recvMsgs codec msgs.length ⟨stream, sizes⟩ = .ok (msgs, ⟨[], left⟩) := by
  induction hstream generalizing sizes with
  | nil => exact ⟨sizes, rfl⟩
  | @cons msg msgs bytes stream hencode hlen _ ih =>
    obtain ⟨hthis, hrest⟩ := forall_mem_cons.mp hfits
    have hsmall := Nat.mod_eq_of_lt (hthis bytes hencode)
    rw [hsmall] at hlen ⊢
    obtain ⟨left, hrecv⟩ := recvMsg_frame codec sizes hlen
      (length_append ▸ Nat.le_add_right bytes.length stream.length)
    rw [take_left, drop_left, codec.decode_encode hencode] at hrecv
    obtain ⟨last, hlast⟩ := ih hrest left
    exact ⟨last, (recvMsgs_succ_iff hrecv).mpr ⟨rfl, hlast⟩⟩

/-- A length that was narrowed: the header is smaller than the body, and the decoder
sees a part of it only. -/
theorem fits_of_recvMsgs (hneeds : codec.NeedsAll) (hstream : Framed codec msgs stream)
    {sizes : List ℕ} {last : Reader}
    (hall : recvMsgs codec msgs.length ⟨stream, sizes⟩ = .ok (msgs, last)) :
    ∀ msg ∈ msgs, codec.Fits msg := by
  induction hstream generalizing sizes with
  | nil => exact forall_mem_nil _
  | @cons msg msgs bytes stream hencode hlen _ ih =>
    have htail : bytes.length % 2 ^ 32 ≤ (bytes ++ stream).length := by
      rw [length_append]
      exact (Nat.mod_le _ _).trans (Nat.le_add_right _ _)
    obtain ⟨left, hrecv⟩ := recvMsg_frame codec sizes hlen htail
    rw [take_append_of_le_length (Nat.mod_le _ _)] at hrecv
    rw [length_cons] at hall
    rcases hmsg : codec.decode (bytes.take (bytes.length % 2 ^ 32)) with message | received
    · rw [hmsg] at hrecv
      rw [recvMsgs, hrecv] at hall
      cases hall
    · rw [hmsg] at hrecv
      obtain ⟨rfl, hrest⟩ := (recvMsgs_succ_iff hrecv).mp hall
      have hwhole : bytes.length % 2 ^ 32 = bytes.length :=
        (Nat.mod_le _ _).eq_of_not_lt fun hcut => hneeds _ bytes _ hencode hcut hmsg
      rw [hwhole, drop_left] at hrest
      refine forall_mem_cons.mpr ⟨fun sent hsent => ?_, ih hrest⟩
      cases hencode.symm.trans hsent
      exact hwhole ▸ Nat.mod_lt _ (by decide)

/-- **Framing keeps messages apart** as long as every length fits its header; the
second part is for a decoder that needs a whole encoding. -/
theorem recvMsgs_sent_iff (hsend : msgs.foldlM (sendMsg codec) [] = .ok stream) :
    ((∀ msg ∈ msgs, codec.Fits msg) → ∀ sizes, ∃ left,
      recvMsgs codec msgs.length ⟨stream, sizes⟩ = .ok (msgs, ⟨[], left⟩)) ∧
    (codec.NeedsAll → ∀ sizes left,
      recvMsgs codec msgs.length ⟨stream, sizes⟩ = .ok (msgs, ⟨[], left⟩) →
      ∀ msg ∈ msgs, codec.Fits msg) := by
  obtain ⟨frames, rfl, hframes⟩ := framed_of_sendMsg hsend
  exact ⟨fun hfits sizes => recvMsgs_framed hframes hfits sizes,
    fun hneeds _ _ hall => fits_of_recvMsgs hneeds hframes hall⟩

/-- Numbers in unary notation. -/
def unary : Codec ℕ where
  encode n := .ok (replicate n 1 ++ [0])
  decode bytes :=
    if bytes.contains 0 then .ok (bytes.takeWhile (· = 1)).length else .error "unexpected end"
  decode_encode hencode := by
    cases hencode
    simp

theorem needsAll_unary : unary.NeedsAll := by
  rintro n bytes k hencode hk
  cases hencode
  rw [length_append, length_replicate, length_singleton] at hk
  rw [take_append_of_le_length (by rw [length_replicate]; omega), take_replicate]
  simp [unary]

/-- Two numbers over one stream. -/
theorem recvMsgs_unary : ∃ stream, [2, 0].foldlM (sendMsg unary) [] = .ok stream ∧
    (∀ sizes, ∃ left, recvMsgs unary 2 ⟨stream, sizes⟩ = .ok ([2, 0], ⟨[], left⟩)) ∧
    ∀ msg ∈ [2, 0], unary.Fits msg := by
  obtain ⟨hreceived, hfits⟩ := @recvMsgs_sent_iff _ unary [2, 0] _ rfl
  have hsmall : ∀ msg ∈ [2, 0], unary.Fits msg := by
    rintro msg hmsg bytes hbytes
    cases hbytes
    fin_cases hmsg <;> decide
  obtain ⟨left, hleft⟩ := hreceived hsmall []
  exact ⟨_, rfl, hreceived hsmall, hfits needsAll_unary [] left hleft⟩

theorem recvMsg_narrowed_of {n : ℕ} (hn : (n + 1) % 2 ^ 32 = 0) :
    ∃ stream, [n].foldlM (sendMsg unary) [] = .ok stream ∧
      ∀ sizes, recvMsg unary ⟨stream, sizes⟩ = .error (.other "unexpected end") := by
  have hlen : (replicate n (1 : UInt8) ++ [0]).length % 2 ^ 32 = 0 := by
    rw [length_append, length_replicate, length_singleton, hn]
  have hsend : sendMsg unary [] n = .ok (toLeBytes 0 ++ (replicate n 1 ++ [0])) := by
    simp only [sendMsg, unary, hlen]
    rfl
  refine ⟨toLeBytes 0 ++ (replicate n 1 ++ [0]), ?_, fun sizes => ?_⟩
  · rw [foldlM_cons, hsend]
    rfl
  · obtain ⟨left, hrecv⟩ := recvMsg_frame unary sizes (Nat.zero_le _) (Nat.zero_le _)
    exact hrecv

/-- `2 ^ 32` bytes are sent under the length zero. -/
theorem recvMsg_narrowed : ∃ stream, [2 ^ 32 - 1].foldlM (sendMsg unary) [] = .ok stream ∧
    ∀ sizes, recvMsg unary ⟨stream, sizes⟩ = .error (.other "unexpected end") :=
  recvMsg_narrowed_of (by decide)

end Dbflux.Ipc

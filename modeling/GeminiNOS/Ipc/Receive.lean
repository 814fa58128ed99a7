import GeminiNOS.Buffer.Pool
import GeminiNOS.Ipc.Message

/-! # Receiving from a link

The handler of a link looks at the header of the next datagram, allocates a
buffer for the announced length and receives the datagram into it.
-/

namespace GeminiNOS

open Foundations

/-- The receive side of a link: the datagrams that wait, and whether the peer has gone. -/
structure RxSocket where
  queue : List Bytes
  closed : Bool
  deriving DecidableEq, Repr

/-- What the first `recv` of the handler sees. -/
inductive Peek where
  | again
  | gone
  | header (header : NosServiceMsg)
  deriving DecidableEq, Repr

/-- `recv` with `MSG_PEEK` into `header_tmp`. Bytes that a short datagram does not cover keep what
the stack held. -/
def peek (stack : Bytes) (sock : RxSocket) : Peek :=
  match sock.queue with
  | [] => if sock.closed then .gone else .again
  | [] :: _ => .gone
  | datagram :: _ => .header (parseHeader
      (datagram.take sizeofNosServiceMsg ++ stack.drop datagram.length))

/-- How the handler goes on after the header. -/
inductive RecvStart where
  | again
  | dropLink
  | noBuffer
  | receive (buf : BufferRef) (count : ℕ)
  deriving DecidableEq, Repr

/-- `full_msg_len`, a `size_t`. -/
def fullMsgLen (header : NosServiceMsg) : ℕ := u64 (sizeofNosServiceMsg + header.payloadLen)

/-- The part of `nos_ipc_recv_handler` before the second `recv`, with the byte count that it
passes to it. -/
def recvStart (pool : NosBufferPool) (stack : Bytes) (sock : RxSocket) :
    RecvStart × NosBufferPool :=
  match peek stack sock with
  | .again => (.again, pool)
  | .gone => (.dropLink, pool)
  | .header header =>
    if header.magic ≠ nosIpcMagic then (.dropLink, pool)
    else
      match pool.nosBufferAlloc (fullMsgLen header) 0 with
      | none => (.noBuffer, pool)
      | some (pool', buf) => (.receive buf (fullMsgLen header), pool')

/-- What the handler makes of the datagram that it takes. -/
inductive RecvOutcome where
  | again
  | dropLink
  | noBuffer
  | partialRecv
  | hello (payload : Bytes)
  | shmEvent
  | message (bytes : Bytes)
  deriving DecidableEq, Repr

/-- The part of `nos_ipc_recv_handler` behind the second `recv`. -/
def dispatch (count : ℕ) (datagram : Bytes) : RecvOutcome :=
  if datagram.length < count then .partialRecv
  else
    let code := (parseHeader datagram).msgCode
    if code = nosIpcMsgHello then .hello ((datagram.take count).drop sizeofNosServiceMsg)
    else if code = nosIpcMsgShmEvent then .shmEvent
    else .message (datagram.take count)

/-- The socket after a `recv` without `MSG_PEEK`, which drops what does not fit. -/
def RxSocket.pop (sock : RxSocket) : RxSocket := { sock with queue := sock.queue.tail }

/-- `nos_ipc_recv_handler`, up to what the outcome starts. -/
def nosIpcRecvHandler (pool : NosBufferPool) (stack : Bytes) (sock : RxSocket) :
    RecvOutcome × RxSocket :=
  match (recvStart pool stack sock).1 with
  | .again => (.again, sock)
  | .dropLink => (.dropLink, sock)
  | .noBuffer => (.noBuffer, sock.pop)
  | .receive _ count => (dispatch count (sock.queue.headD []), sock.pop)

/-- What the peek shows makes the handler drop the link: it is closed, or the magic is wrong. -/
def Peek.Drops : Peek → Prop
  | .again => False
  | .gone => True
  | .header msg => msg.magic ≠ nosIpcMagic

instance : DecidablePred Peek.Drops
  | .again => isFalse id
  | .gone => isTrue trivial
  | .header msg => inferInstanceAs (Decidable (msg.magic ≠ nosIpcMagic))

def DropsLink (stack : Bytes) (sock : RxSocket) : Prop := (peek stack sock).Drops

instance (stack : Bytes) (sock : RxSocket) : Decidable (DropsLink stack sock) :=
  inferInstanceAs (Decidable (Peek.Drops _))

/-- The second `recv`, if there is one, stays inside the chunk of its buffer. -/
def RecvInBounds (pool : NosBufferPool) (stack : Bytes) (sock : RxSocket) : Prop :=
  ∀ r count pool', recvStart pool stack sock = (.receive r count, pool') →
    ∃ buf, pool'.buffer? r = some buf ∧ count ≤ buf.room

/-- The header wraps the 32-bit size of the allocation, and some bin serves what is left of it. -/
def Overruns (pool : NosBufferPool) (header : NosServiceMsg) : Prop :=
  header.magic = nosIpcMagic ∧ 2 ^ 32 ≤ sizeofNosServiceMsg + header.payloadLen ∧
    ∃ bin ∈ pool, bin.Serves (sizeofNosServiceMsg + header.payloadLen - 2 ^ 32)

variable {pool pool' : NosBufferPool} {config : List (ℕ × ℕ)} {stack : Bytes} {sock : RxSocket}
  {header : NosServiceMsg} {r : BufferRef} {count : ℕ}

theorem fullMsgLen_eq (h : header.payloadLen < 2 ^ 32) :
    fullMsgLen header = sizeofNosServiceMsg + header.payloadLen := by
  apply Nat.mod_eq_of_lt
  unfold sizeofNosServiceMsg
  omega

theorem payloadLen_lt_of_peek (h : peek stack sock = .header header) :
    header.payloadLen < 2 ^ 32 := by
  unfold peek at h
  split at h
  · split at h <;> cases h
  · cases h
  · cases h
    exact payloadLen_parseHeader_lt _

/-- The second `recv` is reached with a buffer for the announced length. -/
theorem recvStart_eq_receive :
    recvStart pool stack sock = (.receive r count, pool') ↔
      ∃ header, peek stack sock = .header header ∧ header.magic = nosIpcMagic ∧
        count = fullMsgLen header ∧ pool.nosBufferAlloc count 0 = some (pool', r) := by
  cases hpeek : peek stack sock with
  | again => simp [recvStart, hpeek]
  | gone => simp [recvStart, hpeek]
  | header header =>
    by_cases hmagic : header.magic = nosIpcMagic
    · cases halloc : pool.nosBufferAlloc (fullMsgLen header) 0 with
      | none =>
        simp only [recvStart, hpeek, halloc]
        aesop
      | some result =>
        simp only [recvStart, hpeek, halloc]
        aesop
    · simp [recvStart, hpeek, hmagic]

/-- The size that the allocation of the handler asks the bins for. -/
theorem allocSize_eq (h : header.payloadLen < 2 ^ 32) :
    u32 (u32 (fullMsgLen header) + u32 0) =
      if sizeofNosServiceMsg + header.payloadLen < 2 ^ 32 then
        sizeofNosServiceMsg + header.payloadLen
      else sizeofNosServiceMsg + header.payloadLen - 2 ^ 32 := by
  rw [fullMsgLen_eq h, show u32 0 = 0 from rfl, Nat.add_zero, u32, u32, Nat.mod_mod]
  split
  · exact Nat.mod_eq_of_lt ‹_›
  · rw [Nat.mod_eq_sub_mod (by omega), Nat.mod_eq_of_lt]
    unfold sizeofNosServiceMsg
    omega

theorem not_recvInBounds (hpool : NosBufferPool.Reachable config pool)
    (hpeek : peek stack sock = .header header) (hover : Overruns pool header) :
    ¬ RecvInBounds pool stack sock := by
  intro hin
  obtain ⟨hmagic, hwide, bin, hbin, hserves⟩ := hover
  have hlen := payloadLen_lt_of_peek hpeek
  have hwrap := allocSize_eq hlen
  rw [if_neg (by omega)] at hwrap
  cases halloc : pool.nosBufferAlloc (fullMsgLen header) 0 with
  | none =>
    have hnone := NosBufferPool.allocFrom_eq_none.mp halloc bin hbin
    rw [hwrap] at hnone
    exact hnone hserves
  | some result =>
    obtain ⟨bin', hbin', hserves', buf, hbuf, hroom, -, -⟩ := hpool.sized.alloc halloc
    have hstart := recvStart_eq_receive.mpr ⟨header, hpeek, hmagic, rfl, halloc⟩
    obtain ⟨buf', hbuf', hcount⟩ := hin _ _ _ hstart
    obtain rfl := Option.some.inj (hbuf.symm.trans hbuf')
    have := (hpool.sized bin' hbin').chunkSize_lt
    rw [hroom, fullMsgLen_eq hlen, show u32 0 = 0 from rfl] at hcount
    omega

/-- The second `recv` of a datagram can leave the chunk exactly if its header wraps the size of
the allocation and the pool still serves the wrapped size. -/
theorem recvInBounds_iff (hpool : NosBufferPool.Reachable config pool) :
    RecvInBounds pool stack sock ↔
      ∀ header, peek stack sock = .header header → ¬ Overruns pool header := by
  constructor
  · exact fun hin header hpeek hover => not_recvInBounds hpool hpeek hover hin
  · intro hsafe r count pool' hstart
    obtain ⟨header, hpeek, hmagic, rfl, halloc⟩ := recvStart_eq_receive.mp hstart
    have hlen := payloadLen_lt_of_peek hpeek
    obtain ⟨bin, hbin, hserves, buf, hbuf, hroom, -, -⟩ := hpool.sized.alloc halloc
    refine ⟨buf, hbuf, ?_⟩
    rw [allocSize_eq hlen] at hserves
    split at hserves
    · have := hserves.1
      rw [hroom, fullMsgLen_eq hlen, show u32 0 = 0 from rfl]
      omega
    · exact absurd ⟨hmagic, by omega, bin, hbin, hserves⟩ (hsafe header hpeek)

/-- A message with five bytes of payload, on a fresh pool. -/
theorem recvInBounds_short_payload :
    RecvInBounds (NosBufferPool.nosBufferInitPool [] [(64, 1)]) []
      ⟨[[0x4F, 0x4E, 1, 0] ++ List.replicate 20 0 ++ [5, 0, 0, 0] ++ [1, 2, 3, 4, 5]], false⟩ := by
  refine (recvInBounds_iff (Run.Reachable.refl _)).mpr fun header hpeek hover => ?_
  cases hpeek
  exact absurd hover.2.1 (by decide)

/-- A header whose `payload_len` is `2 ^ 32 - 28`, on a fresh pool with one chunk of 64 bytes. -/
theorem not_recvInBounds_wrapped_length :
    ¬ RecvInBounds (NosBufferPool.nosBufferInitPool [] [(64, 1)]) []
      ⟨[[0x4F, 0x4E, 1, 0] ++ List.replicate 20 0 ++ [0xE4, 0xFF, 0xFF, 0xFF]], false⟩ := by
  refine not_recvInBounds (Run.Reachable.refl _) rfl ⟨by decide, by decide, ?_⟩
  exact ⟨_, List.mem_cons_self, by decide⟩

theorem dispatch_ne_dropLink (count : ℕ) (datagram : Bytes) :
    dispatch count datagram ≠ .dropLink := by
  unfold dispatch
  split
  · simp
  · simp only
    split
    · simp
    · split <;> simp

theorem outcome_eq_dropLink_iff :
    (nosIpcRecvHandler pool stack sock).1 = .dropLink ↔ DropsLink stack sock := by
  unfold nosIpcRecvHandler recvStart DropsLink Peek.Drops
  cases hpeek : peek stack sock with
  | again => simp
  | gone => simp
  | header header =>
    by_cases hmagic : header.magic = nosIpcMagic
    · cases halloc : pool.nosBufferAlloc (fullMsgLen header) 0 with
      | none => simp [hmagic, halloc]
      | some result => simp [hmagic, halloc, dispatch_ne_dropLink]
    · simp [hmagic]

theorem queue_nosIpcRecvHandler (h : ¬ DropsLink stack sock) :
    (nosIpcRecvHandler pool stack sock).2.queue = sock.queue.tail := by
  unfold nosIpcRecvHandler recvStart
  unfold DropsLink Peek.Drops at h
  cases hpeek : peek stack sock with
  | again =>
    have hempty : sock.queue = [] := by
      unfold peek at hpeek
      split at hpeek
      · assumption
      · cases hpeek
      · cases hpeek
    simp [hempty]
  | gone => simp [hpeek] at h
  | header header =>
    have hmagic : header.magic = nosIpcMagic := by simpa [hpeek] using h
    cases halloc : pool.nosBufferAlloc (fullMsgLen header) 0 with
    | none => simp [hmagic, halloc, RxSocket.pop]
    | some result => simp [hmagic, halloc, RxSocket.pop]

end GeminiNOS

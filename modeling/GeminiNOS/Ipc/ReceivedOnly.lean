import Mathlib.Data.Finset.Lattice.Fold
import Mathlib.Data.List.TakeWhile
import GeminiNOS.Ipc.Sockets

/-! # What a receive depends on

The handler of a link looks at a header on its stack that a short datagram fills in
part, and reads the name in a `HELLO` up to a NUL that the datagram need not contain.
Two calls on the same datagram and state are compared that find other bytes on the
stack and behind the received ones.
-/

namespace GeminiNOS

open Foundations

/-- The receive counters of `nos_ipc_stats_t`. -/
structure RxStats where
  rxPackets : ℕ
  rxBytes : ℕ
  rxErrors : ℕ
  bufferAllocFails : ℕ
  deriving DecidableEq, Repr

/-- The counters after a call. What the drain of the SHM queue counts is left to the drain. -/
def RxStats.count (stats : RxStats) : RecvOutcome → RxStats
  | .noBuffer => { stats with bufferAllocFails := u64 (stats.bufferAllocFails + 1) }
  | .partialRecv => { stats with rxErrors := u64 (stats.rxErrors + 1) }
  | .message bytes => { stats with
      rxPackets := u64 (stats.rxPackets + 1)
      rxBytes := u64 (stats.rxBytes + bytes.length) }
  | _ => stats

/-- The outcome is a dispatch: a message for `nos_service_msg_send`, or a drain of the SHM queue. -/
def RecvOutcome.Dispatches : RecvOutcome → Prop
  | .message _ => True
  | .shmEvent => True
  | _ => False

instance : DecidablePred RecvOutcome.Dispatches
  | .message _ => isTrue trivial
  | .shmEvent => isTrue trivial
  | .again => isFalse id
  | .dropLink => isFalse id
  | .noBuffer => isFalse id
  | .partialRecv => isFalse id
  | .hello _ => isFalse id

/-- The outcome with the memory behind the received bytes, into which the name can run on. -/
def RecvOutcome.withLeft (left : Bytes) : RecvOutcome → RecvOutcome
  | .hello payload => .hello (payload ++ left)
  | outcome => outcome

/-- What a call works on: the connections and the sockets, the counters, what has been dispatched,
and the link. -/
structure RxState (B : Type*) where
  node : IpcNode B
  stats : RxStats
  dispatched : List RecvOutcome
  sock : RxSocket

/-- The socket of a call, its connection if it has one, and the answer to a registration. -/
structure RxCall where
  fd : Fd
  conn : Option ℕ
  registers : Bool

namespace IpcNode

variable {B : Type*}

/-- The accepted socket of a `HELLO` becomes that of a connection. -/
def promote (s : IpcNode B) (c : ℕ) (call : RxCall) : IpcNode B :=
  ((s.setLink c { (s.conns c).link with
    fd := call.fd
    isConnected := true }).removeFd call.fd).addFd call.fd connEvents eventCallback c call.registers

/-- The name in a `HELLO` does not depend on what is behind its payload. The payload ends the name
with a NUL; or it fills the 31 bytes that are kept of it, and no connection has a name that
continues it. With all connections in use no name is stored. -/
def NameReceived [Inhabited B] (s : IpcNode B) (call : RxCall) (payload : Bytes) : Prop :=
  0 ∈ payload ∨
    match call.conn with
    | some _ => 31 ≤ payload.length
    | none =>
      (31 ≤ payload.length ∨ maxRemoteConns ≤ s.connCount) ∧
        ∀ left c, s.findConn (some (remoteName (payload ++ left))) none = some c →
          maxRemoteConns ≤ s.connCount ∧ s.promote c call = s

end IpcNode

namespace RxState

variable {B : Type*}

/-- `nos_ipc_recv_handler`, with what its stack and the memory behind the received bytes hold. -/
def nosIpcRecvHandler [Inhabited B] (s : RxState B) (call : RxCall) (pool : NosBufferPool)
    (stack left : Bytes) : RxState B :=
  let r := GeminiNOS.nosIpcRecvHandler pool stack s.sock
  { node := s.node.nosIpcRecvHandler call.fd call.conn call.registers (r.1.withLeft left)
    stats := s.stats.count r.1
    dispatched := if r.1.Dispatches then s.dispatched ++ [r.1] else s.dispatched
    sock := r.2 }

/-- The call ends in the same state whatever the stack and the memory behind the received bytes
hold. -/
def Determined [Inhabited B] (s : RxState B) (call : RxCall) (pool : NosBufferPool) : Prop :=
  ∀ stack stack' left left',
    s.nosIpcRecvHandler call pool stack left = s.nosIpcRecvHandler call pool stack' left'

end RxState

def headerOn (stack datagram : Bytes) : NosServiceMsg :=
  parseHeader (datagram.take sizeofNosServiceMsg ++ stack.drop datagram.length)

/-- The pool has a buffer for the length that a header announces. -/
def NosBufferPool.ServesHeader (pool : NosBufferPool) (header : NosServiceMsg) : Prop :=
  (pool.nosBufferAlloc (fullMsgLen header) 0).isSome

/-- A `HELLO` is received as a whole. -/
def HelloReceived (pool : NosBufferPool) (datagram payload : Bytes) : Prop :=
  sizeofNosServiceMsg ≤ datagram.length ∧ (parseHeader datagram).magic = nosIpcMagic ∧
    (parseHeader datagram).msgCode = nosIpcMsgHello ∧
    fullMsgLen (parseHeader datagram) ≤ datagram.length ∧
    pool.ServesHeader (parseHeader datagram) ∧
    payload = (datagram.take (fullMsgLen (parseHeader datagram))).drop sizeofNosServiceMsg

/-- The condition on the next datagram. It is not the first byte of the magic alone. If it is
shorter than a header, with the right magic, the pool serves all or none of the lengths that the
missing bytes can announce. If it is a `HELLO`, the name is received with it. -/
def RxState.Complete {B : Type*} [Inhabited B] (s : RxState B) (call : RxCall)
    (pool : NosBufferPool) : Prop :=
  ∀ datagram, s.sock.queue.head? = some datagram →
    datagram ≠ [0x4F] ∧
    (2 ≤ datagram.length → datagram.length < sizeofNosServiceMsg →
      (parseHeader datagram).magic = nosIpcMagic → ∀ stack stack',
        pool.ServesHeader (headerOn stack datagram) ↔
          pool.ServesHeader (headerOn stack' datagram)) ∧
    ∀ payload, HelloReceived pool datagram payload → s.node.NameReceived call payload

section Names

variable {payload left left' : Bytes} {b b' : UInt8} {n : ℕ}

theorem remoteName_append_of_mem (h : 0 ∈ payload) :
    remoteName (payload ++ left) = remoteName payload := by
  have hlt : (payload.takeWhile (· ≠ 0)).length ≠ payload.length := by
    intro he
    have hall := List.takeWhile_eq_self_iff.mp ((List.takeWhile_prefix _).eq_of_length he) 0 h
    simp at hall
  rw [remoteName, List.takeWhile_append, if_neg hlt, remoteName]

theorem toList_remoteName_append (h : 0 ∉ payload) :
    (remoteName (payload ++ left)).toList =
      payload.map (fun b => Char.ofNat b.toNat) ++ (remoteName left).toList := by
  have hall : payload.takeWhile (· ≠ 0) = payload := by
    refine List.takeWhile_eq_self_iff.mpr fun b hb => ?_
    have hne : b ≠ 0 := by
      rintro rfl
      exact h hb
    simpa using hne
  rw [remoteName, List.takeWhile_append, hall, if_pos rfl, remoteName, String.toList_ofList,
    String.toList_ofList, List.map_append]

theorem toList_remoteName_cons (hb : b ≠ 0) :
    (remoteName (b :: left)).toList = Char.ofNat b.toNat :: (remoteName left).toList := by
  rw [remoteName, List.takeWhile_cons_of_pos (by simpa using hb), remoteName, String.toList_ofList,
    String.toList_ofList, List.map_cons]

theorem toList_remoteName_replicate (hb : b ≠ 0) :
    (remoteName (List.replicate n b)).toList = List.replicate n (Char.ofNat b.toNat) := by
  induction n with
  | zero => rfl
  | succ n ih => rw [List.replicate_succ, toList_remoteName_cons hb, ih, List.replicate_succ]

/-- A payload of 31 bytes without a NUL decides the stored name. -/
theorem strncpy_remoteName (h : 0 ∉ payload) (hlen : 31 ≤ payload.length) :
    strncpy 31 (remoteName (payload ++ left)) = strncpy 31 (remoteName (payload ++ left')) := by
  rw [strncpy, strncpy, toList_remoteName_append h, toList_remoteName_append h,
    List.take_append_of_le_length (by simpa using hlen),
    List.take_append_of_le_length (by simpa using hlen)]

theorem strncpy_remoteName_ne (h : 0 ∉ payload) (hlen : payload.length < 31) (hb : b ≠ 0)
    (hb' : b' ≠ 0) (hne : Char.ofNat b.toNat ≠ Char.ofNat b'.toNat) :
    strncpy 31 (remoteName (payload ++ b :: left)) ≠
      strncpy 31 (remoteName (payload ++ b' :: left')) := by
  intro he
  rw [strncpy, strncpy, String.ofList_inj, toList_remoteName_append h,
    toList_remoteName_append h, toList_remoteName_cons hb, toList_remoteName_cons hb',
    List.take_append, List.take_append, List.length_map, List.append_cancel_left_eq] at he
  obtain ⟨k, hk⟩ := Nat.exists_eq_succ_of_ne_zero (Nat.sub_ne_zero_of_lt hlen)
  rw [hk, List.take_succ_cons, List.take_succ_cons] at he
  exact hne (List.cons.inj he).1

end Names

namespace IpcNode

variable {B : Type*} [Inhabited B] {s : IpcNode B} {call : RxCall} {payload : Bytes} {c : ℕ}

theorem hello_conn (h : call.conn = some c) :
    s.nosIpcRecvHandler call.fd call.conn call.registers (.hello payload) = { s with
      conns := Function.update s.conns c { s.conns c with
        nodeName := strncpy 31 (remoteName payload) } } := by
  rw [h]
  rfl

theorem hello_found (h : call.conn = none)
    (hfind : s.findConn (some (remoteName payload)) none = some c) :
    s.nosIpcRecvHandler call.fd call.conn call.registers (.hello payload) = s.promote c call := by
  simp only [nosIpcRecvHandler, h, getOrCreateConn, hfind, promote]

theorem hello_full (h : call.conn = none)
    (hfind : s.findConn (some (remoteName payload)) none = none)
    (hfull : maxRemoteConns ≤ s.connCount) :
    s.nosIpcRecvHandler call.fd call.conn call.registers (.hello payload) = s := by
  simp only [nosIpcRecvHandler, h, getOrCreateConn, hfind, if_pos hfull]

theorem hello_new (h : call.conn = none)
    (hfind : s.findConn (some (remoteName payload)) none = none)
    (hfull : ¬ maxRemoteConns ≤ s.connCount) :
    s.nosIpcRecvHandler call.fd call.conn call.registers (.hello payload) =
      promote { s with
        conns := Function.update s.conns s.connCount (.create (some (remoteName payload)) none)
        connCount := s.connCount + 1 } s.connCount call := by
  simp only [nosIpcRecvHandler, h, getOrCreateConn, hfind, if_neg hfull, promote]

omit [Inhabited B] in
theorem connCount_promote : (s.promote c call).connCount = s.connCount := rfl

omit [Inhabited B] in
theorem nodeName_promote (i : ℕ) :
    ((s.promote c call).conns i).nodeName = (s.conns i).nodeName := by
  simp only [promote, addFd, removeFd, setLink, Function.update_apply]
  split
  · next he => rw [he]
  · rfl

omit [Inhabited B] in
theorem findConn_eq_none_of_long {name : String}
    (h : ∀ c < s.connCount, (s.conns c).nodeName.length < name.length) :
    s.findConn (some name) none = none := by
  refine List.find?_eq_none.mpr fun c hc hmatch => ?_
  rcases of_decide_eq_true hmatch with he | he
  · have hlt := h c (List.mem_range.mp hc)
    rw [← Option.some.inj he] at hlt
    exact lt_irrefl _ hlt
  · cases he

omit [Inhabited B] in
/-- There is a memory behind the payload with which the name is none of the stored ones. -/
theorem exists_unmatched (s : IpcNode B) (h : 0 ∉ payload) :
    ∃ n, ∀ b : UInt8, b ≠ 0 →
      s.findConn (some (remoteName (payload ++ b :: List.replicate n 65))) none = none := by
  let longest := (Finset.range s.connCount).sup fun c => (s.conns c).nodeName.length
  refine ⟨longest, fun b hb => findConn_eq_none_of_long fun c hc => ?_⟩
  have hle : (s.conns c).nodeName.length ≤ longest :=
    Finset.le_sup (f := fun c => (s.conns c).nodeName.length) (Finset.mem_range.mpr hc)
  rw [← String.length_toList (s := remoteName _), toList_remoteName_append h,
    toList_remoteName_cons hb, toList_remoteName_replicate (by decide), List.length_append,
    List.length_cons, List.length_replicate]
  omega

theorem hello_congr {payload' : Bytes} (h : remoteName payload = remoteName payload') :
    s.nosIpcRecvHandler call.fd call.conn call.registers (.hello payload) =
      s.nosIpcRecvHandler call.fd call.conn call.registers (.hello payload') := by
  simp only [nosIpcRecvHandler, h]

/-- On a connection the name has to fill what is kept of it. -/
theorem nameReceived_conn_iff (h : call.conn = some c) (hnul : 0 ∉ payload) :
    31 ≤ payload.length ↔ ∀ left left',
      s.nosIpcRecvHandler call.fd call.conn call.registers (.hello (payload ++ left)) =
        s.nosIpcRecvHandler call.fd call.conn call.registers (.hello (payload ++ left')) := by
  constructor
  · intro hlen left left'
    rw [hello_conn h, hello_conn h, strncpy_remoteName hnul hlen]
  · intro hdet
    by_contra hlen
    have heq := congrArg (fun t => (t.conns c).nodeName) (hdet [65] [66])
    simp only [hello_conn h, Function.update_self] at heq
    exact strncpy_remoteName_ne hnul (by omega) (by decide) (by decide) (by decide) heq

/-- On a passive entry it must not be that of a connection either. -/
theorem nameReceived_passive_iff (h : call.conn = none) (hnul : 0 ∉ payload) :
    ((31 ≤ payload.length ∨ maxRemoteConns ≤ s.connCount) ∧
        ∀ left c, s.findConn (some (remoteName (payload ++ left))) none = some c →
          maxRemoteConns ≤ s.connCount ∧ s.promote c call = s) ↔ ∀ left left',
      s.nosIpcRecvHandler call.fd call.conn call.registers (.hello (payload ++ left)) =
        s.nosIpcRecvHandler call.fd call.conn call.registers (.hello (payload ++ left')) := by
  by_cases hfull : maxRemoteConns ≤ s.connCount
  · obtain ⟨n, hn⟩ := s.exists_unmatched hnul
    have hsame : s.nosIpcRecvHandler call.fd call.conn call.registers
        (.hello (payload ++ 65 :: List.replicate n 65)) = s :=
      hello_full h (hn 65 (by decide)) hfull
    constructor
    · rintro ⟨-, hfound⟩
      have hall : ∀ left, s.nosIpcRecvHandler call.fd call.conn call.registers
          (.hello (payload ++ left)) = s := by
        intro left
        cases hfind : s.findConn (some (remoteName (payload ++ left))) none with
        | none => exact hello_full h hfind hfull
        | some c => exact (hello_found h hfind).trans (hfound left c hfind).2
      exact fun left left' => (hall left).trans (hall left').symm
    · intro hdet
      refine ⟨.inr hfull, fun left c hfind => ⟨hfull, ?_⟩⟩
      exact (hello_found h hfind).symm.trans ((hdet left _).trans hsame)
  · constructor
    · rintro ⟨hlen, hfound⟩ left left'
      have hnone : ∀ left, s.findConn (some (remoteName (payload ++ left))) none = none := by
        intro left
        cases hfind : s.findConn (some (remoteName (payload ++ left))) none with
        | none => rfl
        | some c => exact absurd (hfound left c hfind).1 hfull
      have hname : strncpy 31 (remoteName (payload ++ left)) =
          strncpy 31 (remoteName (payload ++ left')) :=
        strncpy_remoteName hnul (hlen.resolve_right hfull)
      rw [hello_new h (hnone left) hfull, hello_new h (hnone left') hfull]
      simp only [IpcConn.create, Option.map_some, Option.getD_some, hname]
    · intro hdet
      obtain ⟨n, hn⟩ := s.exists_unmatched hnul
      have hnew : ∀ b : UInt8, b ≠ 0 → s.nosIpcRecvHandler call.fd call.conn call.registers
          (.hello (payload ++ b :: List.replicate n 65)) = _ :=
        fun b hb => hello_new h (hn b hb) hfull
      refine ⟨.inl ?_, fun left c hfind => ?_⟩
      · by_contra hlen
        have heq := congrArg (fun t => (t.conns s.connCount).nodeName)
          (hdet (65 :: List.replicate n 65) (66 :: List.replicate n 65))
        simp only [hnew 65 (by decide), hnew 66 (by decide), nodeName_promote,
          Function.update_self, IpcConn.create, Option.map_some, Option.getD_some] at heq
        exact strncpy_remoteName_ne hnul (by omega) (by decide) (by decide) (by decide) heq
      · have heq := congrArg IpcNode.connCount (hdet left (65 :: List.replicate n 65))
        rw [hello_found h hfind, hnew 65 (by decide), connCount_promote, connCount_promote] at heq
        exact absurd heq (Nat.ne_of_lt (Nat.lt_succ_self _))

/-- The effect of a `HELLO` on the connections depends on the payload alone exactly if the name is
received with it. -/
theorem nameReceived_iff :
    s.NameReceived call payload ↔ ∀ left left',
      s.nosIpcRecvHandler call.fd call.conn call.registers (.hello (payload ++ left)) =
        s.nosIpcRecvHandler call.fd call.conn call.registers (.hello (payload ++ left')) := by
  by_cases hnul : 0 ∈ payload
  · refine iff_of_true (.inl hnul) fun left left' => hello_congr ?_
    rw [remoteName_append_of_mem hnul, remoteName_append_of_mem hnul]
  · rw [NameReceived, or_iff_right hnul]
    cases hconn : call.conn with
    | some c =>
      simpa only [hconn] using nameReceived_conn_iff (s := s) hconn hnul
    | none =>
      simpa only [hconn] using nameReceived_passive_iff (s := s) hconn hnul

end IpcNode

instance (pool : NosBufferPool) (header : NosServiceMsg) : Decidable (pool.ServesHeader header) :=
  inferInstanceAs (Decidable (_ = true))

section Call

variable {pool : NosBufferPool} {stack datagram payload : Bytes} {sock : RxSocket}
  {rest : List Bytes}

theorem nosIpcRecvHandler_cons (hqueue : sock.queue = datagram :: rest) (hne : datagram ≠ []) :
    nosIpcRecvHandler pool stack sock =
      if (headerOn stack datagram).magic ≠ nosIpcMagic then (.dropLink, sock)
      else if pool.ServesHeader (headerOn stack datagram) then
        (dispatch (fullMsgLen (headerOn stack datagram)) datagram, sock.pop)
      else (.noBuffer, sock.pop) := by
  have hpeek : peek stack sock = .header (headerOn stack datagram) := by
    unfold peek
    rw [hqueue]
    cases datagram with
    | nil => exact absurd rfl hne
    | cons b datagram => rfl
  by_cases hmagic : (headerOn stack datagram).magic = nosIpcMagic
  · cases halloc : pool.nosBufferAlloc (fullMsgLen (headerOn stack datagram)) 0 with
    | none => simp [nosIpcRecvHandler, recvStart, hpeek, hmagic, halloc,
        NosBufferPool.ServesHeader]
    | some result => simp [nosIpcRecvHandler, recvStart, hpeek, hmagic, halloc, hqueue,
        NosBufferPool.ServesHeader]
  · simp [nosIpcRecvHandler, recvStart, hpeek, hmagic]

theorem sizeofNosServiceMsg_le_fullMsgLen (bytes : Bytes) :
    sizeofNosServiceMsg ≤ fullMsgLen (parseHeader bytes) := by
  rw [fullMsgLen_eq (payloadLen_parseHeader_lt bytes)]
  exact Nat.le_add_right ..

theorem dispatch_of_short (h : datagram.length < sizeofNosServiceMsg) :
    dispatch (fullMsgLen (headerOn stack datagram)) datagram = .partialRecv :=
  if_pos (h.trans_le (sizeofNosServiceMsg_le_fullMsgLen _))

theorem headerOn_of_le (h : sizeofNosServiceMsg ≤ datagram.length) :
    headerOn stack datagram = parseHeader datagram :=
  parseHeader_take h

theorem magic_headerOn (h : 2 ≤ datagram.length) :
    (headerOn stack datagram).magic = (parseHeader datagram).magic := by
  refine wordAt_congr fun i hi => ?_
  have hlen : i < (datagram.take sizeofNosServiceMsg).length := by
    rw [List.length_take]
    unfold sizeofNosServiceMsg
    omega
  rw [List.getD_eq_getElem?_getD, List.getElem?_append_left hlen,
    List.getElem?_take_of_lt (by unfold sizeofNosServiceMsg; omega), List.getD_eq_getElem?_getD]

theorem helloReceived_iff (hqueue : sock.queue = datagram :: rest)
    (h : sizeofNosServiceMsg ≤ datagram.length) :
    (nosIpcRecvHandler pool stack sock).1 = .hello payload ↔
      HelloReceived pool datagram payload := by
  have hne : datagram ≠ [] := by
    rintro rfl
    exact absurd h (by decide)
  rw [nosIpcRecvHandler_cons hqueue hne, headerOn_of_le h]
  unfold HelloReceived
  by_cases hmagic : (parseHeader datagram).magic = nosIpcMagic
  · by_cases hserves : pool.ServesHeader (parseHeader datagram)
    · by_cases hshort : datagram.length < fullMsgLen (parseHeader datagram)
      · simp [dispatch, hmagic, hserves, hshort]
      · by_cases hhello : (parseHeader datagram).msgCode = nosIpcMsgHello
        · simp [dispatch, hmagic, hserves, hshort, hhello, h, Nat.le_of_not_lt hshort, eq_comm]
        · by_cases hshm : (parseHeader datagram).msgCode = nosIpcMsgShmEvent
          · have hcodes : nosIpcMsgShmEvent ≠ nosIpcMsgHello := by decide
            simp [dispatch, hmagic, hserves, hshort, hshm, hcodes]
          · simp [dispatch, hmagic, hserves, hshort, hhello, hshm]
    · simp [hmagic, hserves]
  · simp [hmagic]

end Call

namespace RxState

variable {B : Type*} [Inhabited B] {s : RxState B} {call : RxCall} {pool : NosBufferPool}
  {datagram : Bytes} {rest : List Bytes}

/-- With an outcome that the stack has no part in, the name in a `HELLO` is what is left. -/
theorem determined_iff_of_outcome {r : RecvOutcome × RxSocket}
    (h : ∀ stack, GeminiNOS.nosIpcRecvHandler pool stack s.sock = r) :
    s.Determined call pool ↔
      ∀ payload, r.1 = .hello payload → s.node.NameReceived call payload := by
  constructor
  · intro hdet payload hhello
    refine IpcNode.nameReceived_iff.mpr fun left left' => ?_
    have heq := congrArg RxState.node (hdet [] [] left left')
    simpa only [nosIpcRecvHandler, h, hhello, RecvOutcome.withLeft] using heq
  · intro hname stack stack' left left'
    have hnode : s.node.nosIpcRecvHandler call.fd call.conn call.registers (r.1.withLeft left) =
        s.node.nosIpcRecvHandler call.fd call.conn call.registers (r.1.withLeft left') := by
      cases hr : r.1 with
      | hello payload => exact IpcNode.nameReceived_iff.mp (hname payload hr) left left'
      | again => rfl
      | dropLink => rfl
      | noBuffer => rfl
      | partialRecv => rfl
      | shmEvent => rfl
      | message bytes => rfl
    simp only [nosIpcRecvHandler, h, hnode]

theorem complete_of_head (hqueue : s.sock.queue = datagram :: rest) :
    s.Complete call pool ↔ datagram ≠ [0x4F] ∧
      (2 ≤ datagram.length → datagram.length < sizeofNosServiceMsg →
        (parseHeader datagram).magic = nosIpcMagic → ∀ stack stack',
          pool.ServesHeader (headerOn stack datagram) ↔
            pool.ServesHeader (headerOn stack' datagram)) ∧
      ∀ payload, HelloReceived pool datagram payload → s.node.NameReceived call payload := by
  unfold Complete
  rw [hqueue]
  simp

theorem determined_short_iff (hqueue : s.sock.queue = datagram :: rest)
    (htwo : 2 ≤ datagram.length) (hshort : datagram.length < sizeofNosServiceMsg) :
    s.Determined call pool ↔ ((parseHeader datagram).magic = nosIpcMagic → ∀ stack stack',
      pool.ServesHeader (headerOn stack datagram) ↔
        pool.ServesHeader (headerOn stack' datagram)) := by
  have hcall : ∀ stack, GeminiNOS.nosIpcRecvHandler pool stack s.sock =
      if (parseHeader datagram).magic ≠ nosIpcMagic then (.dropLink, s.sock)
      else if pool.ServesHeader (headerOn stack datagram) then (.partialRecv, s.sock.pop)
      else (.noBuffer, s.sock.pop) := by
    intro stack
    have hne : datagram ≠ [] := List.ne_nil_of_length_pos (by omega)
    rw [nosIpcRecvHandler_cons hqueue hne, magic_headerOn htwo, dispatch_of_short hshort]
  by_cases hmagic : (parseHeader datagram).magic = nosIpcMagic
  · simp only [hmagic, ne_eq, not_true_eq_false, if_false] at hcall
    have hstats : ∀ stack left, (s.nosIpcRecvHandler call pool stack left).stats.rxErrors =
        if pool.ServesHeader (headerOn stack datagram) then u64 (s.stats.rxErrors + 1)
        else s.stats.rxErrors := by
      intro stack left
      simp only [nosIpcRecvHandler, hcall]
      split <;> rfl
    have hcount : u64 (s.stats.rxErrors + 1) ≠ s.stats.rxErrors := by
      unfold u64
      omega
    constructor
    · intro hdet _ stack stack'
      have heq := congrArg (fun t => t.stats.rxErrors) (hdet stack stack' [] [])
      simp only [hstats] at heq
      by_cases hserves : pool.ServesHeader (headerOn stack datagram)
      · rw [if_pos hserves] at heq
        by_cases hserves' : pool.ServesHeader (headerOn stack' datagram)
        · exact iff_of_true hserves hserves'
        · exact absurd (heq.trans (if_neg hserves')) hcount
      · rw [if_neg hserves] at heq
        by_cases hserves' : pool.ServesHeader (headerOn stack' datagram)
        · exact absurd (heq.trans (if_pos hserves')).symm hcount
        · exact iff_of_false hserves hserves'
    · intro hsame
      have hcall' : ∀ stack, GeminiNOS.nosIpcRecvHandler pool stack s.sock =
          if pool.ServesHeader (headerOn [] datagram) then (.partialRecv, s.sock.pop)
          else (.noBuffer, s.sock.pop) := by
        intro stack
        rw [hcall]
        simp only [hsame hmagic stack []]
      refine (determined_iff_of_outcome hcall').mpr fun payload hhello => ?_
      split at hhello <;> cases hhello
  · simp only [hmagic, ne_eq, not_false_eq_true, if_true] at hcall
    refine iff_of_true ((determined_iff_of_outcome hcall).mpr ?_) fun h => absurd h hmagic
    intro payload hhello
    cases hhello

/-- One byte of the magic leaves it to the stack whether the link is dropped. -/
theorem not_determined_of_byte (hqueue : s.sock.queue = [0x4F] :: rest) :
    ¬ s.Determined call pool := by
  intro hdet
  have heq := congrArg (fun t => t.sock.queue) (hdet [] [0, 0x4E] [] [])
  simp only [nosIpcRecvHandler, nosIpcRecvHandler_cons hqueue (by simp)] at heq
  rw [if_pos (by decide), if_neg (by decide)] at heq
  have hpop : ∀ r r' : RecvOutcome, (if pool.ServesHeader (headerOn [0, 0x4E] [0x4F]) then
      (r, s.sock.pop) else (r', s.sock.pop)).2 = s.sock.pop := by
    intro r r'
    split <;> rfl
  rw [hpop, RxSocket.pop, hqueue] at heq
  exact List.cons_ne_self _ _ heq

theorem determined_of_wrong_byte (hqueue : s.sock.queue = datagram :: rest)
    (hone : datagram.length < 2) (hbyte : datagram ≠ [0x4F]) : s.Determined call pool := by
  have hcall : ∀ stack, GeminiNOS.nosIpcRecvHandler pool stack s.sock = (.dropLink, s.sock) := by
    intro stack
    cases datagram with
    | nil => simp [GeminiNOS.nosIpcRecvHandler, recvStart, peek, hqueue]
    | cons b bytes =>
      obtain rfl : bytes = [] :=
        List.length_eq_zero_iff.mp (Nat.lt_one_iff.mp (Nat.lt_of_succ_lt_succ hone))
      rw [nosIpcRecvHandler_cons hqueue (List.cons_ne_nil _ _), if_pos]
      intro hmagic
      have hlow : (headerOn stack [b]).magic =
          b.toNat + 256 * wordAt ([b].take sizeofNosServiceMsg ++ stack.drop 1) 1 1 := rfl
      have hlt : b.toNat < 256 := b.toNat_lt
      have heq : b.toNat = 0x4F := by
        unfold nosIpcMagic at hmagic
        omega
      exact hbyte (congrArg (fun b => [b]) (UInt8.toNat_inj.mp heq))
  refine (determined_iff_of_outcome hcall).mpr ?_
  intro payload hhello
  cases hhello

/-- A receive depends on nothing but the datagram and the state exactly if the datagram is
complete in what the handler reads of it. -/
theorem determined_iff_complete (s : RxState B) (call : RxCall) (pool : NosBufferPool) :
    s.Determined call pool ↔ s.Complete call pool := by
  cases hqueue : s.sock.queue with
  | nil =>
    have hcall : ∀ stack, GeminiNOS.nosIpcRecvHandler pool stack s.sock =
        (if s.sock.closed then .dropLink else .again, s.sock) := by
      intro stack
      cases hclosed : s.sock.closed <;>
        simp [GeminiNOS.nosIpcRecvHandler, recvStart, peek, hqueue, hclosed]
    refine iff_of_true ((determined_iff_of_outcome hcall).mpr fun payload hhello => ?_) ?_
    · split at hhello <;> cases hhello
    · intro datagram hhead
      rw [hqueue] at hhead
      cases hhead
  | cons datagram rest =>
    rw [complete_of_head hqueue]
    rcases Nat.lt_or_ge datagram.length sizeofNosServiceMsg with hshort | hwhole
    · have hhello : ∀ payload, HelloReceived pool datagram payload →
          s.node.NameReceived call payload :=
        fun payload h => absurd h.1 (Nat.not_le_of_lt hshort)
      rcases Nat.lt_or_ge datagram.length 2 with hone | htwo
      · by_cases hbyte : datagram = [0x4F]
        · subst hbyte
          exact iff_of_false (not_determined_of_byte hqueue) fun h => h.1 rfl
        · refine iff_of_true ?_ ⟨hbyte, fun h => absurd h (Nat.not_le_of_lt hone), hhello⟩
          exact determined_of_wrong_byte hqueue hone hbyte
      · rw [determined_short_iff hqueue htwo hshort]
        have hbyte : datagram ≠ [0x4F] := by
          rintro rfl
          exact absurd htwo (by decide)
        exact ⟨fun h => ⟨hbyte, fun _ _ => h, hhello⟩, fun h => h.2.1 htwo hshort⟩
    · have hne : datagram ≠ [] := List.ne_nil_of_length_pos ((by decide : 0 < 28).trans_le hwhole)
      have hbyte : datagram ≠ [0x4F] := by
        rintro rfl
        exact absurd hwhole (by decide)
      have hcall : ∀ stack, GeminiNOS.nosIpcRecvHandler pool stack s.sock =
          GeminiNOS.nosIpcRecvHandler pool [] s.sock := by
        intro stack
        rw [nosIpcRecvHandler_cons hqueue hne, nosIpcRecvHandler_cons hqueue hne,
          headerOn_of_le hwhole, headerOn_of_le hwhole]
      rw [determined_iff_of_outcome hcall]
      simp only [helloReceived_iff hqueue hwhole]
      exact ⟨fun h => ⟨hbyte, fun _ hlt => absurd hlt (Nat.not_lt_of_le hwhole), h⟩,
        fun h => h.2.2⟩

/-- A `HELLO` without a payload on a passive socket. What follows it in its chunk names the node. -/
theorem not_determined_empty_hello :
    ¬ (RxState.mk (IpcNode.start (B := ℕ) 0) ⟨0, 0, 0, 0⟩ []
      ⟨[headerBytes ⟨nosIpcMagic, nosIpcVersion, 0, 0, nosIpcMsgHello, 0, 0, 0⟩], false⟩).Determined
      ⟨5, none, true⟩ (NosBufferPool.nosBufferInitPool [] [(64, 1)]) := by
  intro hdet
  have heq := congrArg (fun t => (t.node.conns 0).nodeName) (hdet [] [] [65] [66])
  exact absurd heq (by decide +kernel)

end RxState

end GeminiNOS

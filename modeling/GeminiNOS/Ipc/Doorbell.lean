import GeminiNOS.Ipc.Conn
import GeminiNOS.Ipc.Receive
import GeminiNOS.Shm.MpscQueue

/-! # The doorbell of the receive queue

A sender puts a message into the shared-memory queue of the receiver and then an
`SHM_EVENT` on its connection to it. The handler that takes the event drains the
queue. The threads `P` of the sending nodes `N`, the connections with their
rings, what is in flight on the sockets and the handler of the receiver take
their steps in any order.
-/

namespace GeminiNOS

open Foundations Run

/-- The message that `nos_ipc_send_enqueue_shm` makes of what is in a chunk. -/
def shmEvent (chunk : NosServiceMsg) : Bytes :=
  headerBytes { chunk with
    magic := nosIpcMagic
    version := nosIpcVersion
    msgCode := nosIpcMsgShmEvent
    payloadLen := 0 }

/-- A whole `SHM_EVENT` message. -/
structure IsShmEvent (datagram : Bytes) : Prop where
  magic : (parseHeader datagram).magic = nosIpcMagic
  msgCode : (parseHeader datagram).msgCode = nosIpcMsgShmEvent
  whole : fullMsgLen (parseHeader datagram) ≤ datagram.length

/-- Where a call of `nos_ipc_send_enqueue_shm` stands: before it, inside `nos_shm_mpsc_enqueue`,
before it allocates the event, before the enqueue of the event, and in `nos_ipc_process_tx`. From
the third on, with the claim that the message has in the receive queue, and before the enqueue of
the event with what its chunk held. -/
inductive ShmSendPc where
  | idle
  | enqueue
  | allocEvent (ticket : ℕ)
  | ring (ticket : ℕ) (chunk : NosServiceMsg)
  | processTx (ticket : ℕ)

/-- Who runs `nos_ipc_process_tx`: a call of `nos_ipc_send_enqueue_shm`, or another thread of the
node. -/
inductive TxCaller (P : Type*) where
  | call (p : P)
  | other

/-- A receiver with its senders. A buffer in a ring is given by the bytes that `send` takes from
it, and a socket by the descriptor of the sender. The history has the calls that have returned
`NOS_OK`, with their node and their claim. -/
structure Doorbell (P N : Type*) where
  queue : NosShmMpscQueue P
  call : P → ShmSendPc
  conn : N → NosIpcConn Bytes
  txCaller : N → Option (TxCaller P)
  inFlight : N → Fd → List Bytes
  draining : Bool
  returnedOk : List (N × ℕ)

/-- What a call of `nos_ipc_recv_handler` finds besides the datagrams. -/
structure RecvEnv where
  pool : NosBufferPool
  stack : Bytes
  closed : Bool

/-- The steps. A chunk is what the memory of an allocation holds, and a missing environment stands
for a connection that `get_or_create_conn` does not find. -/
inductive DoorbellAction (P N : Type*) where
  | call (p : P) (isShm remoteFound : Bool) (offset : ℕ)
  | produce (p : P) (spurious : Bool)
  | allocEvent (p : P) (chunk : Option NosServiceMsg)
  | ring (p : P) (env : Option (EnqueueEnv Bytes))
  | sendOther (n : N) (buf : Bytes) (env : EnqueueEnv Bytes)
  | txLock (n : N) (caller : TxCaller P)
  | txTurn (n : N) (outcome : SendOutcome)
  | promote (n : N) (fd : ℕ)
  | linkGone (n : N)
  | recv (n : N) (fd : Fd) (env : RecvEnv)
  | closeLink (n : N) (fd : Fd)
  | drain

namespace Doorbell

variable {P N : Type*} [DecidableEq P] [DecidableEq N] (node : P → N)

def init : Doorbell P N where
  queue := .empty
  call _ := .idle
  conn _ := .create []
  txCaller _ := none
  inFlight _ _ := []
  draining := false
  returnedOk := []

def setCall (s : Doorbell P N) (p : P) (pc : ShmSendPc) : Doorbell P N :=
  { s with call := Function.update s.call p pc }

def setConn (s : Doorbell P N) (n : N) (conn : NosIpcConn Bytes) : Doorbell P N :=
  { s with conn := Function.update s.conn n conn }

def setInFlight (s : Doorbell P N) (n : N) (fd : Fd) (datagrams : List Bytes) : Doorbell P N :=
  { s with inFlight := Function.update s.inFlight n (Function.update (s.inFlight n) fd datagrams) }

/-- A call returns `NOS_OK`. -/
def returnOk (s : Doorbell P N) (p : P) (ticket : ℕ) : Doorbell P N :=
  { s.setCall p .idle with returnedOk := (node p, ticket) :: s.returnedOk }

/-- Where a call goes on when its producer has made a step: once its offset is in the slot it goes
on to the event, and with `NOS_ERR_BUSY` it returns. -/
def afterProduce (before after : EnqueuePc) : ShmSendPc :=
  match before, after with
  | .store _ _ ticket, _ => .allocEvent ticket
  | _, .idle => .idle
  | _, _ => .enqueue

/-- The caller can be about to run `nos_ipc_process_tx` for the connection of a node. -/
def MayLock (s : Doorbell P N) (n : N) : TxCaller P → Bool
  | .other => true
  | .call p =>
    match s.call p with
    | .processTx _ => node p = n
    | _ => false

/-- The caller of `nos_ipc_process_tx` gives up the lock. -/
def releaseTx (s : Doorbell P N) (n : N) (caller : TxCaller P) : Doorbell P N :=
  let t := { s with txCaller := Function.update s.txCaller n none }
  match caller with
  | .other => t
  | .call p =>
    match s.call p with
    | .processTx ticket => t.returnOk node p ticket
    | _ => t

/-- The state after a turn of `nos_ipc_process_tx`. Without a socket nothing can be sent. -/
def txTurn (s : Doorbell P N) (n : N) (caller : TxCaller P) (turn : TxTurn Bytes) :
    Option (Doorbell P N) :=
  if turn.returns then some ((s.setConn n turn.conn).releaseTx node n caller)
  else if (s.conn n).fd < 0 then none
  else some ((s.setConn n turn.conn).setInFlight n (s.conn n).fd
    (s.inFlight n (s.conn n).fd ++ turn.sent.toList))

/-- The dequeue of the drain loop has found the queue empty. -/
def DrainEnds (queue : NosShmMpscQueue P) : Prop := queue.consumer = .loadTail queue.tail

instance (queue : NosShmMpscQueue P) : Decidable (DrainEnds queue) :=
  inferInstanceAs (Decidable (_ = _))

def drainTurn (queue : NosShmMpscQueue P) : Option (NosShmMpscQueue P) :=
  if queue.consumer = .idle then queue.step .dequeue else queue.step .consume

/-- One step. The lock of a connection keeps its enqueues out of `nos_ipc_process_tx`, and the
thread of the handler drains the queue before it takes the next datagram. -/
def step (s : Doorbell P N) : DoorbellAction P N → Option (Doorbell P N)
  | .call p isShm remoteFound offset =>
    match s.call p with
    | .idle =>
      if isShm = false ∨ remoteFound = false ∨ offset = 0 then some s
      else (s.queue.step (.enqueue p offset)).map fun queue =>
        { s.setCall p .enqueue with queue := queue }
    | _ => none
  | .produce p spurious =>
    match s.call p with
    | .enqueue => (s.queue.step (.produce p spurious)).map fun queue =>
        { s.setCall p (afterProduce (s.queue.producer p) (queue.producer p)) with queue := queue }
    | _ => none
  | .allocEvent p chunk =>
    match s.call p with
    | .allocEvent ticket =>
      match chunk with
      | none => some (s.returnOk node p ticket)
      | some chunk => some (s.setCall p (.ring ticket chunk))
    | _ => none
  | .ring p env =>
    match s.call p with
    | .ring ticket chunk =>
      match env with
      | none => some (s.returnOk node p ticket)
      | some env =>
        if (s.txCaller (node p)).isSome then none
        else
          match (s.conn (node p)).nosIpcSendEnqueueEx env (shmEvent chunk) with
          | (.ok, conn) => some ((s.setConn (node p) conn).setCall p (.processTx ticket))
          | (_, conn) => some ((s.setConn (node p) conn).returnOk node p ticket)
    | _ => none
  | .sendOther n buf env =>
    if (s.txCaller n).isSome then none
    else some (s.setConn n ((s.conn n).nosIpcSendEnqueueEx env buf).2)
  | .txLock n caller =>
    if (s.txCaller n).isSome ∨ s.MayLock node n caller = false then none
    else some { s with txCaller := Function.update s.txCaller n (some caller) }
  | .txTurn n outcome =>
    match s.txCaller n with
    | none => none
    | some caller => s.txTurn node n caller ((s.conn n).processTxTurn outcome)
  | .promote n fd =>
    if (s.txCaller n).isSome then none else some (s.setConn n ((s.conn n).promote fd))
  | .linkGone n => some (s.setConn n (s.conn n).linkGone)
  | .recv n fd env =>
    if s.draining then none
    else
      match nosIpcRecvHandler env.pool env.stack ⟨s.inFlight n fd, env.closed⟩ with
      | (.dropLink, _) => some (s.setInFlight n fd [])
      | (.shmEvent, sock) => some { s.setInFlight n fd sock.queue with draining := true }
      | (_, sock) => some (s.setInFlight n fd sock.queue)
  | .closeLink n fd => some (s.setInFlight n fd [])
  | .drain =>
    if s.draining = false then none
    else (drainTurn s.queue).map fun queue =>
      { s with queue := queue, draining := ¬ DrainEnds s.queue }

/-- An `SHM_EVENT` of the node is in its ring or in flight. -/
def Pending (s : Doorbell P N) (n : N) : Prop :=
  (∃ d ∈ (s.conn n).tx.contents, IsShmEvent d) ∨ ∃ fd, ∃ d ∈ s.inFlight n fd, IsShmEvent d

/-- The message of a claim has left the queue, or it will be taken: an event is pending, or the
drain loop runs. -/
def Answered (s : Doorbell P N) (n : N) (ticket : ℕ) : Prop :=
  ticket < s.queue.returned.length ∨ s.Pending n ∨ s.draining = true

/-- The conditions on the steps. A claim finds room in the queue, a call gets a buffer for its event
and finds a connection that accepts it, the receiver has a buffer for an event that it takes, and no
link goes with an event unread. -/
def Rings (s : Doorbell P N) : DoorbellAction P N → Prop
  | .produce p spurious => s.queue.Room (.produce p spurious)
  | .allocEvent _ chunk => chunk.isSome
  | .ring p env => ∃ e ∈ env, (s.conn (node p)).Accepts e
  | .recv n fd env =>
    if DropsLink env.stack ⟨s.inFlight n fd, env.closed⟩ then ∀ d ∈ s.inFlight n fd, ¬ IsShmEvent d
    else ∀ d ∈ (s.inFlight n fd).head?, IsShmEvent d →
      (env.pool.nosBufferAlloc (fullMsgLen (parseHeader d)) 0).isSome
  | .closeLink n fd => ∀ d ∈ s.inFlight n fd, ¬ IsShmEvent d
  | _ => True

end Doorbell

end GeminiNOS

import GeminiNOS.Foundations.Before
import GeminiNOS.Ipc.Doorbell

/-! # Two transports to one receiver

A thread sends each message either in a buffer of the pool, through the ring of the
connection of its node, or in shared memory, through the queue of the receiver, with
an event on that connection. The handler of the receiver passes on a pool message
when it takes it, and drains the queue when it takes an event. No link fails, but the
`HELLO` of a socket that the receiver has opened puts the connection on that socket.
Threads and sockets take their steps in any order.
-/

namespace GeminiNOS

open Foundations

/-- What is in a buffer on a connection: the `HELLO`, a pool message of a thread with its number
among the messages of the thread, or the event for a claim. -/
inductive TxMark (P : Type*) where
  | hello
  | pool (p : P) (i : ℕ)
  | event (ticket : ℕ)

/-- A buffer on a connection, by the bytes that `send` takes from it. -/
structure TxBuf (P : Type*) where
  bytes : Bytes
  mark : TxMark P

instance {P : Type*} : Inhabited (TxBuf P) := ⟨⟨[], .hello⟩⟩

/-- A message in a buffer of the pool, or one in shared memory by its claim in the queue. -/
inductive SentMsg (P : Type*) where
  | pool (p : P) (i : ℕ)
  | shm (ticket : ℕ)
  deriving DecidableEq, Repr

def TxMark.poolMsg {P : Type*} : TxMark P → List (SentMsg P)
  | .pool p i => [.pool p i]
  | _ => []

def TxMark.ticket {P : Type*} : TxMark P → List ℕ
  | .event ticket => [ticket]
  | _ => []

/-- The buffer is no `HELLO`. -/
def IsTraffic {P : Type*} (buf : TxBuf P) : Bool :=
  match buf.mark with
  | .hello => false
  | _ => true

/-- The environment of an enqueue, with the `HELLO` as a buffer. -/
def EnqueueEnv.marked {P : Type*} (env : EnqueueEnv Bytes) : EnqueueEnv (TxBuf P) where
  udsPath := env.udsPath
  connect := env.connect
  hello := env.hello.map (⟨·, .hello⟩)

/-- A receiver with its senders. A socket is given by the descriptor that the sender has for it. The
history has the messages of each thread in the order in which
they were accepted, the claims whose events have been queued, those whose events the receiver has
discarded, and the messages that it has passed on. -/
structure TransportLink (P N : Type*) where
  queue : NosShmMpscQueue P
  call : P → ShmSendPc
  conn : N → NosIpcConn (TxBuf P)
  inFlight : N → Fd → List (TxBuf P)
  draining : Bool
  accepted : P → List (SentMsg P)
  rung : List ℕ
  discarded : List ℕ
  passed : List (SentMsg P)

/-- The steps: a send of a pool message, the steps of a send in shared memory, a turn of
`nos_ipc_process_tx`, a `HELLO` that puts the connection on another socket, a call of the receive
handler for a socket, and a step of the drain loop. -/
inductive TransportAction (P N : Type*) where
  | sendPool (p : P) (bytes : Bytes) (env : EnqueueEnv Bytes)
  | sendShm (p : P) (offset : ℕ)
  | produce (p : P) (spurious : Bool)
  | allocEvent (p : P) (chunk : Option NosServiceMsg)
  | ring (p : P) (env : Option (EnqueueEnv Bytes))
  | txTurn (n : N) (outcome : SendOutcome)
  | promote (n : N) (fd : ℕ)
  | recv (n : N) (fd : Fd) (pool : NosBufferPool) (stack : Bytes)
  | drain

namespace TransportLink

variable {P N : Type*} [DecidableEq P] [DecidableEq N] (node : P → N)

def init : TransportLink P N where
  queue := .empty
  call _ := .idle
  conn _ := .create default
  inFlight _ _ := []
  draining := false
  accepted _ := []
  rung := []
  discarded := []
  passed := []

def setCall (s : TransportLink P N) (p : P) (pc : ShmSendPc) : TransportLink P N :=
  { s with call := Function.update s.call p pc }

def setConn (s : TransportLink P N) (n : N) (conn : NosIpcConn (TxBuf P)) : TransportLink P N :=
  { s with conn := Function.update s.conn n conn }

def setInFlight (s : TransportLink P N) (n : N) (fd : Fd) (bufs : List (TxBuf P)) :
    TransportLink P N :=
  { s with inFlight := Function.update s.inFlight n (Function.update (s.inFlight n) fd bufs) }

def accept (s : TransportLink P N) (p : P) (m : SentMsg P) : TransportLink P N :=
  { s with accepted := Function.update s.accepted p (s.accepted p ++ [m]) }

/-- The send of a pool message, through `nos_ipc_send_enqueue_ex`. -/
def sendPool (s : TransportLink P N) (p : P) (bytes : Bytes) (env : EnqueueEnv Bytes) :
    TransportLink P N :=
  let i := (s.accepted p).length
  match (s.conn (node p)).nosIpcSendEnqueueEx env.marked ⟨bytes, .pool p i⟩ with
  | (.ok, conn) => (s.setConn (node p) conn).accept p (.pool p i)
  | (_, conn) => s.setConn (node p) conn

/-- A step of `nos_shm_mpsc_enqueue`. The message is accepted once its offset is in its slot. -/
def produce (s : TransportLink P N) (p : P) (queue : NosShmMpscQueue P) : TransportLink P N :=
  let pc := Doorbell.afterProduce (s.queue.producer p) (queue.producer p)
  let t := { s.setCall p pc with queue := queue }
  match pc with
  | .allocEvent ticket => t.accept p (.shm ticket)
  | _ => t

def ring (s : TransportLink P N) (p : P) (ticket : ℕ) (chunk : NosServiceMsg)
    (env : EnqueueEnv Bytes) : TransportLink P N :=
  match (s.conn (node p)).nosIpcSendEnqueueEx env.marked ⟨shmEvent chunk, .event ticket⟩ with
  | (.ok, conn) => { (s.setConn (node p) conn).setCall p .idle with rung := ticket :: s.rung }
  | (_, conn) => (s.setConn (node p) conn).setCall p .idle

/-- A turn of `nos_ipc_process_tx`. Without a socket nothing can be sent. -/
def txTurn (s : TransportLink P N) (n : N) (turn : TxTurn (TxBuf P)) :
    Option (TransportLink P N) :=
  if turn.returns then some (s.setConn n turn.conn)
  else if (s.conn n).fd < 0 then none
  else some ((s.setConn n turn.conn).setInFlight n (s.conn n).fd
    (s.inFlight n (s.conn n).fd ++ turn.sent.toList))

/-- What the handler does with the next datagram of a socket, which stays connected. -/
def recv (s : TransportLink P N) (n : N) (fd : Fd) :
    List (TxBuf P) → RecvOutcome → Option (TransportLink P N)
  | _, .again => some s
  | _, .dropLink => none
  | [], _ => none
  | _ :: rest, .shmEvent => some { s.setInFlight n fd rest with draining := true }
  | buf :: rest, .message _ =>
    some { s.setInFlight n fd rest with passed := s.passed ++ buf.mark.poolMsg }
  | buf :: rest, _ =>
    some { s.setInFlight n fd rest with discarded := buf.mark.ticket ++ s.discarded }

/-- What the drain loop passes on: the message of the next claim, when a dequeue returns. -/
def newlyReturned (before after : NosShmMpscQueue P) : List (SentMsg P) :=
  if before.returned.length < after.returned.length then [.shm before.returned.length] else []

/-- One step. A thread makes one call after the other, and `nos_ipc_process_tx` runs at any time. -/
def step (s : TransportLink P N) : TransportAction P N → Option (TransportLink P N)
  | .sendPool p bytes env =>
    match s.call p with
    | .idle => some (s.sendPool node p bytes env)
    | _ => none
  | .sendShm p offset =>
    match s.call p with
    | .idle =>
      if offset = 0 then some s
      else (s.queue.step (.enqueue p offset)).map fun queue =>
        { s.setCall p .enqueue with queue := queue }
    | _ => none
  | .produce p spurious =>
    match s.call p with
    | .enqueue => (s.queue.step (.produce p spurious)).map (s.produce p)
    | _ => none
  | .allocEvent p chunk =>
    match s.call p with
    | .allocEvent ticket =>
      match chunk with
      | none => some (s.setCall p .idle)
      | some chunk => some (s.setCall p (.ring ticket chunk))
    | _ => none
  | .ring p env =>
    match s.call p with
    | .ring ticket chunk =>
      match env with
      | none => some (s.setCall p .idle)
      | some env => some (s.ring node p ticket chunk env)
    | _ => none
  | .txTurn n outcome =>
    if outcome = .failed then none
    else s.txTurn n ((s.conn n).processTxTurn outcome)
  | .promote n fd => some (s.setConn n ((s.conn n).promote fd))
  | .recv n fd pool stack =>
    if s.draining then none
    else s.recv n fd (s.inFlight n fd)
      (nosIpcRecvHandler pool stack ⟨(s.inFlight n fd).map TxBuf.bytes, false⟩).1
  | .drain =>
    if s.draining = false then none
    else (Doorbell.drainTurn s.queue).map fun queue =>
      { s with
        queue := queue
        draining := ¬ Doorbell.DrainEnds s.queue
        passed := s.passed ++ newlyReturned s.queue queue }

/-- The order of what is passed on, for the messages of every thread. It is that of acceptance
within each transport, and a message in shared memory whose event has been queued and not discarded
goes before all later pool messages. -/
structure InOrder (s : TransportLink P N) : Prop where
  once : s.passed.Nodup
  sent : ∀ m ∈ s.passed, ∃ p, m ∈ s.accepted p
  pool : ∀ p i j, Before (s.accepted p) (.pool p i) (.pool p j) →
    .pool p i ∈ s.passed → .pool p j ∈ s.passed → Before s.passed (.pool p i) (.pool p j)
  shm : ∀ p j k, Before (s.accepted p) (.shm j) (.shm k) →
    .shm k ∈ s.passed → Before s.passed (.shm j) (.shm k)
  shmPool : ∀ p k i, Before (s.accepted p) (.shm k) (.pool p i) →
    k ∈ s.rung → k ∉ s.discarded → .pool p i ∈ s.passed → Before s.passed (.shm k) (.pool p i)

/-- The conditions on the steps. A claim finds room in the queue, and a connection that goes to
another socket leaves none where something is unread. -/
def Orderly (s : TransportLink P N) : TransportAction P N → Prop
  | .produce p spurious => s.queue.Room (.produce p spurious)
  | .promote n fd => (s.conn n).fd = fd ∨ ∀ buf ∈ s.inFlight n (s.conn n).fd, IsTraffic buf = false
  | _ => True

end TransportLink

end GeminiNOS

import GeminiNOS.Ipc.Doorbell
import GeminiNOS.Service.Registry

/-! # A pair of nodes

The way of a message between two nodes, or inside one: the rings of the connections,
the sockets, the shared-memory receive queues and the queues of the threads, with the
registries by which they are chosen. Everything that a node does with a message that
it has taken from one of them is in the step that takes it. The history counts what
the nodes count.
-/

namespace GeminiNOS

open Foundations

/-- The number of a message in a buffer of the pool, or in shared memory. -/
inductive MsgId where
  | pool (i : ℕ)
  | shm (i : ℕ)
  deriving DecidableEq, Repr

/-- What is in a buffer, with the number of its message. Control messages have none. -/
structure MsgBuf where
  bytes : Bytes
  msg : Option MsgId
  deriving DecidableEq

instance : Inhabited MsgBuf := ⟨⟨[], none⟩⟩

def MsgBuf.dstService (buf : MsgBuf) : ℕ := (parseHeader buf.bytes).dstService

/-- A message that `nos_service_msg_send` has accepted, with the node where its service is. -/
structure AcceptedMsg where
  id : MsgId
  receiver : Bool
  service : ℕ
  deriving DecidableEq

/-- The counters of `nos_ipc_stats_t` for what does not get through. -/
inductive IpcCounter where
  | txErrors
  | rxErrors
  | droppedFull
  | bufferAllocFails
  deriving DecidableEq

/-- Where a send in shared memory stands: before it, inside `nos_shm_mpsc_enqueue`, before it
allocates the event, and before the enqueue of the event, with what its chunk held. -/
inductive MailPc where
  | idle
  | enqueue (udsPath : String) (buf : MsgBuf)
  | allocEvent (udsPath : String)
  | ring (udsPath : String) (chunk : NosServiceMsg)
  deriving DecidableEq

/-- What a send depends on: the offset of a buffer in shared memory, whether
`nos_shm_get_remote_queue` finds the queue, the connection that `get_or_create_conn` finds, and the
answers to a reconnection. -/
structure SendEnv (K : Type*) where
  shmOffset : Option ℕ
  remoteFound : Bool
  conn : Option K
  connect : ConnectOutcome
  hello : Option Bytes

/-- What a call of `nos_ipc_recv_handler` finds besides the datagrams: the pool, the stack, whether
there is a local queue, the connection for the node in a `HELLO`, and what its send depends on. -/
structure TakeEnv (K : Type*) where
  pool : NosBufferPool
  stack : Bytes
  hasQueue : Bool
  promoted : Option K
  send : SendEnv K

/-- Two nodes with threads `T`, connections `K` and components `C`. A connected pair of sockets has
a number, and each node has the descriptors of its ends, the connections that wait at its listening
socket, and what is unread at its ends. The history has the messages of the claims in the receive
queues, the messages whose sends have been accepted and whose services have stayed bound, those
that a provider has got, and those that a counter has counted. -/
structure NodePair (T K C : Type*) where
  registry : Bool → ServiceRegistry C T
  msgQueue : Bool → T → RingBuffer MsgBuf maxQueueSize
  conn : Bool → K → NosIpcConn MsgBuf
  fdTable : Bool → Fd → Option ℕ
  backlog : Bool → List ℕ
  inbox : Bool → ℕ → List MsgBuf
  closed : Bool → ℕ → Bool
  sockets : ℕ
  queue : Bool → NosShmMpscQueue T
  call : Bool → T → MailPc
  draining : Bool → Bool
  claimed : Bool → List MsgBuf
  next : ℕ
  owed : List AcceptedMsg
  dispatched : List MsgId
  counted : List (IpcCounter × MsgId)

/-- The steps of a node: a registration or removal, a send of a thread, the steps of a send in
shared memory, a turn of `nos_ipc_process_tx`, an accept, a call of the receive handler for a
descriptor and perhaps a connection, one whose `recv` fails, a step of the drain loop, and a turn
of `process_thread_messages`. -/
inductive PairAction (T K C : Type*) where
  | registerProviderBind (n : Bool) (serviceId : ℕ) (provider : Option C) (thread : Option T)
  | registerRemoteEx (n : Bool) (serviceId : ℕ) (nodeName udsPath : Option String)
  | unregisterProvider (n : Bool) (serviceId : ℕ)
  | send (n : Bool) (t : T) (bytes : Bytes) (env : SendEnv K)
  | produce (n : Bool) (t : T) (spurious : Bool)
  | allocEvent (n : Bool) (t : T) (chunk : Option NosServiceMsg)
  | ring (n : Bool) (t : T) (env : SendEnv K)
  | txTurn (n : Bool) (k : K) (outcome : SendOutcome)
  | accept (n : Bool) (fd : ℕ)
  | recv (n : Bool) (fd : ℕ) (k : Option K) (env : TakeEnv K)
  | recvFails (n : Bool) (fd : ℕ) (k : Option K)
  | drain (n : Bool) (env : SendEnv K)
  | messages (n : Bool) (t : T)

def ServiceRegistry.Binds {C T : Type*} (reg : ServiceRegistry C T) (serviceId : ℕ) : Prop :=
  ∃ entry ∈ reg.findServiceEntry serviceId,
    entry.isRemote = false ∧ entry.localProvider.isSome ∧ entry.localThread.isSome

instance {C T : Type*} (reg : ServiceRegistry C T) (serviceId : ℕ) :
    Decidable (reg.Binds serviceId) :=
  inferInstanceAs (Decidable (∃ _ ∈ _, _))

def ServiceRegistry.RoutesAway {C T : Type*} (reg : ServiceRegistry C T) (serviceId : ℕ) : Prop :=
  ∃ entry ∈ reg.findServiceEntry serviceId, entry.isRemote = true

instance {C T : Type*} (reg : ServiceRegistry C T) (serviceId : ℕ) :
    Decidable (reg.RoutesAway serviceId) :=
  inferInstanceAs (Decidable (∃ _ ∈ _, _))

def SendEnv.msgId {K : Type*} (env : SendEnv K) (i : ℕ) : MsgId :=
  if env.shmOffset.isSome then .shm i else .pool i

def SendEnv.toEnqueue {K : Type*} (env : SendEnv K) (udsPath : String) : EnqueueEnv MsgBuf where
  udsPath := some udsPath
  connect := env.connect
  hello := env.hello.map (⟨·, none⟩)

/-- A new socket gets a descriptor that is not in use. -/
def ConnectOutcome.Unused (table : Fd → Option ℕ) : ConnectOutcome → Prop
  | .connects fd => table fd = none
  | _ => True

instance (table : Fd → Option ℕ) : DecidablePred (ConnectOutcome.Unused table)
  | .connects fd => inferInstanceAs (Decidable (table fd = none))
  | .socketFails => isTrue trivial
  | .connectFails => isTrue trivial

namespace NodePair

variable {T K C : Type*}

def init : NodePair T K C where
  registry _ := .zero
  msgQueue _ _ := .init default maxQueueSize_pos
  conn _ _ := .create default
  fdTable _ _ := none
  backlog _ := []
  inbox _ _ := []
  closed _ _ := false
  sockets := 0
  queue _ := .empty
  call _ _ := .idle
  draining _ := false
  claimed _ := []
  next := 0
  owed := []
  dispatched := []
  counted := []

/-- Write the registry of a node. A message whose service is not bound any more is owed no more. -/
def setRegistry (s : NodePair T K C) (n : Bool) (reg : ServiceRegistry C T) : NodePair T K C :=
  { s with
    registry := Function.update s.registry n reg
    owed := s.owed.filter fun m => m.receiver ≠ n ∨ reg.Binds m.service }

def setInbox (s : NodePair T K C) (n : Bool) (i : ℕ) (bufs : List MsgBuf) : NodePair T K C :=
  { s with inbox := Function.update s.inbox n (Function.update (s.inbox n) i bufs) }

def setQueue (s : NodePair T K C) (n : Bool) (queue : NosShmMpscQueue T) : NodePair T K C :=
  { s with queue := Function.update s.queue n queue }

def count (s : NodePair T K C) (c : IpcCounter) (buf : MsgBuf) : NodePair T K C :=
  { s with counted := buf.msg.toList.map (c, ·) ++ s.counted }

def accept (s : NodePair T K C) (receiver : Bool) (buf : MsgBuf) : NodePair T K C :=
  match buf.msg with
  | none => s
  | some id =>
    if (s.registry receiver).Binds buf.dstService then
      { s with owed := ⟨id, receiver, buf.dstService⟩ :: s.owed }
    else s

/-- `connect` to the listening socket of the other node. -/
def openSocket (s : NodePair T K C) (n : Bool) (fd : Fd) : NodePair T K C :=
  { s with
    fdTable := Function.update s.fdTable n (Function.update (s.fdTable n) fd (some s.sockets))
    backlog := Function.update s.backlog (!n) (s.backlog (!n) ++ [s.sockets])
    sockets := s.sockets + 1 }

/-- `close`, which discards what is unread at the end. -/
def closeFd (s : NodePair T K C) (n : Bool) (fd : Fd) : NodePair T K C :=
  match s.fdTable n fd with
  | none => s
  | some i =>
    { s.setInbox n i [] with
      fdTable := Function.update s.fdTable n (Function.update (s.fdTable n) fd none)
      closed := Function.update s.closed n (Function.update (s.closed n) i true) }

def connectSocket (s : NodePair T K C) (n : Bool) (conn : NosIpcConn MsgBuf)
    (env : EnqueueEnv MsgBuf) : NodePair T K C :=
  match env.connect with
  | .connects fd => if conn.Reconnects env then s.openSocket n fd else s
  | _ => s

def newBuf (s : NodePair T K C) (bytes : Bytes) (env : SendEnv K) : MsgBuf :=
  ⟨bytes, some (env.msgId s.next)⟩

def receiver (s : NodePair T K C) (n : Bool) (serviceId : ℕ) : Bool :=
  if (s.registry n).RoutesAway serviceId then !n else n

/-- The provider that a turn of `process_thread_messages` calls. -/
def callee (s : NodePair T K C) (hasOnMsg : C → Bool) (n : Bool) (serviceId : ℕ) : Option C :=
  (((s.registry n).findServiceEntry serviceId).bind ServiceSlot.localProvider).filter hasOnMsg

/-- The message that the next step of the drain loop takes out, with its offset. Dequeues return
the claims in their order. -/
def dequeued (s : NodePair T K C) (n : Bool) : Option (ℕ × MsgBuf) :=
  match (s.queue n).consumer with
  | .advance _ offset => (s.claimed n)[(s.queue n).returned.length]?.map (offset, ·)
  | _ => none

/-- The socket of a pair as the handler of a node finds it. -/
def rxSocket (s : NodePair T K C) (n : Bool) (i : ℕ) : RxSocket :=
  ⟨(s.inbox n i).map MsgBuf.bytes, s.closed (!n) i⟩

section Sends

variable [DecidableEq T] [DecidableEq K]

def setMsgQueue (s : NodePair T K C) (n : Bool) (t : T) (ring : RingBuffer MsgBuf maxQueueSize) :
    NodePair T K C :=
  { s with msgQueue := Function.update s.msgQueue n (Function.update (s.msgQueue n) t ring) }

def setConn (s : NodePair T K C) (n : Bool) (k : K) (conn : NosIpcConn MsgBuf) : NodePair T K C :=
  { s with conn := Function.update s.conn n (Function.update (s.conn n) k conn) }

def setCall (s : NodePair T K C) (n : Bool) (t : T) (pc : MailPc) : NodePair T K C :=
  { s with call := Function.update s.call n (Function.update (s.call n) t pc) }

/-- `nos_transport_local_send` -/
def nosTransportLocalSend (s : NodePair T K C) (n : Bool) (buf : MsgBuf) :
    Option T → NosStatus × NodePair T K C
  | none => (.err, s)
  | some t =>
    if (s.msgQueue n t).IsFull then (.errBusy, s)
    else (.ok, s.setMsgQueue n t ((s.msgQueue n t).push buf))

/-- `nos_ipc_send_enqueue_ex`, up to `nos_ipc_process_tx`. -/
def nosIpcSendEnqueueEx (s : NodePair T K C) (n : Bool) (udsPath : String) (buf : MsgBuf)
    (env : SendEnv K) : NosStatus × NodePair T K C :=
  match env.conn with
  | none => (.err, s)
  | some k =>
    let r := (s.conn n k).nosIpcSendEnqueueEx (env.toEnqueue udsPath) buf
    let t := (s.connectSocket n (s.conn n k) (env.toEnqueue udsPath)).setConn n k r.2
    (r.1, if r.1 = .errBusy then t.count .droppedFull buf else t)

/-- `nos_ipc_send_enqueue_shm`, up to `nos_shm_mpsc_enqueue`. -/
def nosIpcSendEnqueueShm (s : NodePair T K C) (n : Bool) (t : T) (udsPath : String) (buf : MsgBuf)
    (remoteFound : Bool) (offset : ℕ) : Option NosStatus × NodePair T K C :=
  if remoteFound = false ∨ offset = 0 then (some .err, s)
  else (none, (s.setQueue (!n) ((s.queue (!n)).setProducer t (.loadTail offset))).setCall n t
    (.enqueue udsPath buf))

/-- `nos_transport_remote_uds_send` -/
def nosTransportRemoteUdsSend (s : NodePair T K C) (n : Bool) (t : T) (udsPath : String)
    (buf : MsgBuf) (env : SendEnv K) : Option NosStatus × NodePair T K C :=
  match env.shmOffset with
  | some offset => s.nosIpcSendEnqueueShm n t udsPath buf env.remoteFound offset
  | none =>
    let r := s.nosIpcSendEnqueueEx n udsPath buf env
    (some r.1, r.2)

/-- `nos_service_msg_send`. A send in shared memory has no status yet. -/
def nosServiceMsgSend (s : NodePair T K C) (n : Bool) (t : T) (buf : MsgBuf) (env : SendEnv K) :
    Option NosStatus × NodePair T K C :=
  match (s.registry n).findServiceEntry buf.dstService with
  | none => (some .err, s)
  | some entry =>
    if entry.isRemote then s.nosTransportRemoteUdsSend n t entry.remoteUdsPath buf env
    else
      let r := s.nosTransportLocalSend n buf entry.localThread
      (some r.1, r.2)

def send (s : NodePair T K C) (n : Bool) (t : T) (bytes : Bytes) (env : SendEnv K) :
    NodePair T K C :=
  let buf := s.newBuf bytes env
  let r := { s with next := s.next + 1 }.nosServiceMsgSend n t buf env
  if r.1 = some .ok then r.2.accept (s.receiver n buf.dstService) buf else r.2

/-- The call of `nos_service_msg_send` for a message that has come in, whose status is ignored. If
it leaves the node again, it is a new message. -/
def passOn (mgmt : T) (s : NodePair T K C) (n : Bool) (buf : MsgBuf) (env : SendEnv K) :
    NodePair T K C :=
  if (s.registry n).RoutesAway buf.dstService then s.send n mgmt buf.bytes env
  else (s.nosServiceMsgSend n mgmt buf env).2

/-- A step of `nos_shm_mpsc_enqueue`: it writes the slot, claims it or finds the queue full. -/
def produced (s : NodePair T K C) (n : Bool) (t : T) (udsPath : String) (buf : MsgBuf)
    (queue : NosShmMpscQueue T) : NodePair T K C :=
  let r := s.setQueue (!n) queue
  match (s.queue (!n)).producer t, queue.producer t with
  | .store _ _ _, _ => (r.setCall n t (.allocEvent udsPath)).accept (!n) buf
  | _, .store _ _ _ =>
    { r with claimed := Function.update s.claimed (!n) (s.claimed (!n) ++ [buf]) }
  | _, .idle => r.setCall n t .idle
  | _, _ => r

/-- A turn of `nos_ipc_process_tx`. Only an open socket takes what is sent. -/
def txTurn (s : NodePair T K C) (n : Bool) (k : K) (outcome : SendOutcome) :
    Option (NodePair T K C) :=
  let conn := s.conn n k
  let turn := conn.processTxTurn outcome
  match turn.sent, s.fdTable n conn.fd with
  | some buf, some i =>
    if s.closed (!n) i then none
    else some ((s.setConn n k turn.conn).setInbox (!n) i (s.inbox (!n) i ++ [buf]))
  | some _, none => none
  | none, _ =>
    if conn.tx.IsEmpty ∨ outcome ≠ .failed then some (s.setConn n k turn.conn)
    else some (((s.closeFd n conn.fd).setConn n k turn.conn).count .txErrors conn.tx.first)

def dropLink (s : NodePair T K C) (n : Bool) (fd : Fd) : Option K → NodePair T K C
  | none => s.closeFd n fd
  | some k => (s.closeFd n fd).setConn n k (s.conn n k).linkGone

def take (mgmt : T) (s : NodePair T K C) (n : Bool) (i fd : ℕ) (k : Option K)
    (env : TakeEnv K) : List MsgBuf → RecvOutcome → NodePair T K C
  | _, .again => s
  | _, .dropLink => s.dropLink n fd k
  | [], _ => s
  | buf :: rest, .noBuffer => (s.setInbox n i rest).count .bufferAllocFails buf
  | buf :: rest, .partialRecv => (s.setInbox n i rest).count .rxErrors buf
  | _ :: rest, .hello _ =>
    match k, env.promoted with
    | none, some k => (s.setInbox n i rest).setConn n k ((s.conn n k).promote fd)
    | _, _ => s.setInbox n i rest
  | _ :: rest, .shmEvent =>
    { s.setInbox n i rest with draining := Function.update s.draining n env.hasQueue }
  | buf :: rest, .message bytes =>
    passOn mgmt (s.setInbox n i rest) n { buf with bytes := bytes }
      { env.send with shmOffset := none }

/-- `nos_ipc_recv_handler`. A `recv` on a descriptor that is not open fails. -/
def recv (mgmt : T) (s : NodePair T K C) (n : Bool) (fd : ℕ) (k : Option K) (env : TakeEnv K) :
    NodePair T K C :=
  match s.fdTable n fd with
  | none => s.dropLink n fd k
  | some i => s.take mgmt n i fd k env (s.inbox n i)
      (nosIpcRecvHandler env.pool env.stack (s.rxSocket n i)).1

def drain (mgmt : T) (s : NodePair T K C) (n : Bool) (env : SendEnv K)
    (queue : NosShmMpscQueue T) : NodePair T K C :=
  let r := { s.setQueue n queue with
    draining := Function.update s.draining n (¬ Doorbell.DrainEnds (s.queue n)) }
  match s.dequeued n with
  | none => r
  | some (offset, buf) => passOn mgmt r n buf { env with shmOffset := some offset }

/-- A turn of `process_thread_messages`. -/
def processThreadMessage (hasOnMsg : C → Bool) (s : NodePair T K C) (n : Bool) (t : T) :
    NodePair T K C :=
  if (s.msgQueue n t).IsEmpty then s
  else
    let buf := (s.msgQueue n t).first
    let r := s.setMsgQueue n t (s.msgQueue n t).advance
    match s.callee hasOnMsg n buf.dstService with
    | none => r
    | some _ => { r with dispatched := buf.msg.toList ++ s.dispatched }

/-- The thread of the handlers is inside none of them, and a reconnection gets a descriptor. -/
def Ready (mgmt : T) (s : NodePair T K C) (n : Bool) (connect : ConnectOutcome) : Prop :=
  s.call n mgmt = .idle ∧ connect.Unused (s.fdTable n)

instance (mgmt : T) (s : NodePair T K C) (n : Bool) (connect : ConnectOutcome) :
    Decidable (Ready mgmt s n connect) := inferInstanceAs (Decidable (_ ∧ _))

/-- One step of a node, whose handlers run in its management thread. -/
def step (mgmt : T) (hasOnMsg : C → Bool) (s : NodePair T K C) :
    PairAction T K C → Option (NodePair T K C)
  | .registerProviderBind n serviceId provider thread => some (s.setRegistry n
      ((s.registry n).nosServiceRegisterProviderBind serviceId provider thread).2)
  | .registerRemoteEx n serviceId nodeName udsPath => some (s.setRegistry n
      ((s.registry n).nosServiceRegisterRemoteEx serviceId nodeName udsPath).2)
  | .unregisterProvider n serviceId =>
    some (s.setRegistry n ((s.registry n).nosServiceUnregisterProvider serviceId).2)
  | .send n t bytes env =>
    if s.call n t = .idle ∧ env.connect.Unused (s.fdTable n) then some (s.send n t bytes env)
    else none
  | .produce n t spurious =>
    match s.call n t with
    | .enqueue udsPath buf =>
      ((s.queue (!n)).produce t spurious).map (s.produced n t udsPath buf)
    | _ => none
  | .allocEvent n t chunk =>
    match s.call n t with
    | .allocEvent udsPath =>
      some (s.setCall n t ((chunk.map (MailPc.ring udsPath)).getD .idle))
    | _ => none
  | .ring n t env =>
    match s.call n t with
    | .ring udsPath chunk =>
      if env.connect.Unused (s.fdTable n) then
        some ((s.nosIpcSendEnqueueEx n udsPath ⟨shmEvent chunk, none⟩ env).2.setCall n t .idle)
      else none
    | _ => none
  | .txTurn n k outcome => s.txTurn n k outcome
  | .accept n fd =>
    match s.backlog n with
    | [] => none
    | i :: rest =>
      if s.fdTable n fd = none then
        some { s with
          backlog := Function.update s.backlog n rest
          fdTable := Function.update s.fdTable n (Function.update (s.fdTable n) fd (some i)) }
      else none
  | .recv n fd k env =>
    if s.draining n = false ∧ Ready mgmt s n env.send.connect then some (s.recv mgmt n fd k env)
    else none
  | .recvFails n fd k =>
    if s.draining n = false ∧ s.call n mgmt = .idle then some (s.dropLink n fd k) else none
  | .drain n env =>
    if s.draining n ∧ Ready mgmt s n env.connect then
      (Doorbell.drainTurn (s.queue n)).map (s.drain mgmt n env)
    else none
  | .messages n t => some (s.processThreadMessage hasOnMsg n t)

end Sends

end NodePair

end GeminiNOS

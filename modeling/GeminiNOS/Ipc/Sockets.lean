import GeminiNOS.Ipc.Conn
import GeminiNOS.Ipc.Receive
import GeminiNOS.Scheduler.FdTable

/-! # The sockets of a node

The IPC layer of a node with its connections, its open sockets and the descriptor
table of the management thread. Enqueues connect sockets and send on them from any
thread, under the lock of the connection. The management thread takes batches of
events from epoll and calls, for one event after the other, the callback that its
table has for it. A call to close a socket is kept with what was true of the socket.
-/

namespace GeminiNOS

open Foundations

/-- `MAX_REMOTE_CONNS` -/
def maxRemoteConns : ℕ := 16

/-- `MAX_EVENTS` -/
def maxEvents : ℕ := 10

/-- `nos_ipc_accept_handler`, as an entry of the descriptor table names it. -/
def acceptCallback : ℕ := 0

/-- `nos_ipc_passive_handler` -/
def passiveCallback : ℕ := 1

/-- `nos_ipc_event_handler`, whose argument is the index of the connection. -/
def eventCallback : ℕ := 2

/-- The management thread, as the argument of the first two callbacks. -/
def mgmtThread : ℕ := 0

/-- `strncpy` into a zeroed array with room for more than `n` bytes. -/
def strncpy (n : ℕ) (s : String) : String := String.ofList (s.toList.take n)

/-- The C string at the start of a `HELLO` payload. -/
def remoteName (payload : Bytes) : String :=
  String.ofList ((payload.takeWhile (· ≠ 0)).map fun b => Char.ofNat b.toNat)

/-- `nos_ipc_process_tx`, on the answers to its sends. There is no result when these are not the
answers that the call gets. -/
def NosIpcConn.nosIpcProcessTx {B : Type*} (conn : NosIpcConn B) :
    List SendOutcome → Option (NosIpcConn B)
  | [] => if conn.tx.IsEmpty then some conn.relieve else none
  | outcome :: outcomes =>
    if conn.tx.IsEmpty then none
    else
      let turn := conn.processTxTurn outcome
      if turn.returns then if outcomes = [] then some turn.conn else none
      else turn.conn.nosIpcProcessTx outcomes

namespace NosIpcConn

variable {B : Type*} {conn conn' : NosIpcConn B} {outcomes : List SendOutcome} {n : ℕ}

def afterSends (conn : NosIpcConn B) (n : ℕ) : NosIpcConn B :=
  { conn with tx := RingBuffer.advance^[n] conn.tx }

/-- How a call of `nos_ipc_process_tx` ends after so many sends: with an empty ring, at a full
socket, or at a send that fails. -/
inductive TxEnds (conn : NosIpcConn B) (n : ℕ) : List SendOutcome → NosIpcConn B → Prop
  | drained (h : (conn.afterSends n).tx.IsEmpty) :
    TxEnds conn n (List.replicate n .sent) (conn.afterSends n).relieve
  | stopped (h : ¬ (conn.afterSends n).tx.IsEmpty) :
    TxEnds conn n (List.replicate n .sent ++ [.again]) (conn.afterSends n)
  | broken (h : ¬ (conn.afterSends n).tx.IsEmpty) :
    TxEnds conn n (List.replicate n .sent ++ [.failed]) (conn.afterSends n).linkFailed

theorem afterSends_succ : conn.afterSends (n + 1) =
    ({ conn with tx := conn.tx.advance } : NosIpcConn B).afterSends n := rfl

theorem used_advance (hempty : ¬ conn.tx.IsEmpty) :
    ({ conn with tx := conn.tx.advance } : NosIpcConn B).used + 1 = conn.used := by
  rw [used_eq, used_eq]
  exact conn.tx.used_advance hempty

theorem not_isEmpty_of_lt_used (h : n < conn.used) : ¬ conn.tx.IsEmpty := by
  rw [conn.tx.isEmpty_iff, ← used_eq]
  omega

theorem used_afterSends (h : n ≤ conn.used) : (conn.afterSends n).used + n = conn.used := by
  induction n generalizing conn with
  | zero => rfl
  | succ n ih =>
    have hused := used_advance (not_isEmpty_of_lt_used h)
    have hrest := ih (Nat.le_of_succ_le_succ (h.trans_eq hused.symm))
    rw [← afterSends_succ] at hrest
    omega

theorem exists_txEnds (h : conn.nosIpcProcessTx outcomes = some conn') :
    ∃ n ≤ conn.used, conn.TxEnds n outcomes conn' := by
  induction outcomes generalizing conn with
  | nil =>
    simp only [nosIpcProcessTx, Option.ite_none_right_eq_some, Option.some.injEq] at h
    obtain ⟨hempty, rfl⟩ := h
    exact ⟨0, Nat.zero_le _, .drained hempty⟩
  | cons outcome outcomes ih =>
    simp only [nosIpcProcessTx] at h
    split at h
    · cases h
    · rename_i hempty
      simp only [processTxTurn, if_neg hempty] at h
      cases outcome with
      | sent =>
        obtain ⟨n, hn, hends⟩ := ih h
        refine ⟨n + 1, (Nat.succ_le_succ hn).trans_eq (used_advance hempty), ?_⟩
        cases hends with
        | drained hend => exact .drained hend
        | stopped hend => exact .stopped hend
        | broken hend => exact .broken hend
      | again =>
        simp only [if_true, Option.ite_none_right_eq_some, Option.some.injEq] at h
        obtain ⟨rfl, rfl⟩ := h
        exact ⟨0, Nat.zero_le _, .stopped hempty⟩
      | failed =>
        simp only [if_true, Option.ite_none_right_eq_some, Option.some.injEq] at h
        obtain ⟨rfl, rfl⟩ := h
        exact ⟨0, Nat.zero_le _, .broken hempty⟩

theorem nosIpcProcessTx_stopped (h : n < conn.used) :
    conn.nosIpcProcessTx (List.replicate n .sent ++ [.again]) = some (conn.afterSends n) := by
  have hempty := not_isEmpty_of_lt_used h
  induction n generalizing conn with
  | zero =>
    simp only [List.replicate_zero, List.nil_append, nosIpcProcessTx, processTxTurn, if_neg hempty]
    rfl
  | succ n ih =>
    have hnext : n < ({ conn with tx := conn.tx.advance } : NosIpcConn B).used :=
      Nat.lt_of_succ_lt_succ (h.trans_eq (used_advance hempty).symm)
    rw [List.replicate_succ, List.cons_append]
    simp only [nosIpcProcessTx, processTxTurn, if_neg hempty]
    exact ih hnext (not_isEmpty_of_lt_used hnext)

end NosIpcConn

/-- The epoll registration of a descriptor leads to the entry that it was registered with. -/
def FdTable.RegisteredAs (thread : FdTable) (fd : Fd) (callback arg : ℕ) : Prop :=
  (thread.epoll fd).map (fun ev => thread.entryAt ev.ptr) = some ⟨fd, some callback, arg⟩

instance (thread : FdTable) (fd : Fd) (callback arg : ℕ) :
    Decidable (thread.RegisteredAs fd callback arg) :=
  inferInstanceAs (Decidable (_ = _))

namespace FdSystem

/-- `nos_scheduler_add_fd_ex`, whose result its callers here ignore. -/
def addFdEx (fds : FdSystem) (fd : Fd) (events callback arg : ℕ) (accept : Bool) : FdSystem :=
  let r := nosSchedulerAddFdEx fds.thread fd events (some callback) arg accept
  ⟨r.2, if r.1 = .ok then Function.update fds.registered fd (some (some callback, arg))
    else fds.registered⟩

/-- `nos_scheduler_remove_fd` -/
def removeFd (fds : FdSystem) (fd : Fd) : FdSystem :=
  ⟨(nosSchedulerRemoveFd fds.thread fd).2, Function.update fds.registered fd none⟩

/-- What `close` does to the epoll set. The slot of the descriptor stays taken. -/
def closeFd (fds : FdSystem) (fd : Fd) : FdSystem where
  thread := { fds.thread with epoll := Function.update fds.thread.epoll fd none }
  registered := Function.update fds.registered fd none

/-- An addition now succeeds, and no live registration points at the slot that it takes. -/
def AddSafe (fds : FdSystem) (accept : Bool) : Prop :=
  fds.thread.fdCount < maxFdEntries ∧ fds.thread.NextSlotUnused ∧ accept = true

end FdSystem

/-- A connection with the names that `get_or_create_conn` looks at. -/
structure IpcConn (B : Type*) where
  nodeName : String
  udsPath : String
  link : NosIpcConn B

namespace IpcConn

variable {B : Type*}

/-- A connection as `get_or_create_conn` makes it. -/
def create [Inhabited B] (nodeName udsPath : Option String) : IpcConn B where
  nodeName := (nodeName.map (strncpy 31)).getD "Unknown"
  udsPath := (udsPath.map (strncpy 107)).getD "Passive"
  link := .create default

/-- The node name is that of the connection, or else the path is. -/
def Matches (conn : IpcConn B) (nodeName udsPath : Option String) : Prop :=
  nodeName = some conn.nodeName ∨ udsPath = some conn.udsPath

instance (conn : IpcConn B) (nodeName udsPath : Option String) :
    Decidable (conn.Matches nodeName udsPath) :=
  inferInstanceAs (Decidable (_ ∨ _))

end IpcConn

/-- A call of `close`: whether its descriptor was an open socket, and whether that was the socket
of the connection or of the passive entry that is closed. -/
structure CloseCall where
  fd : Fd
  isOpen : Bool
  isOwned : Bool
  deriving DecidableEq, Repr

/-- A connection is marked disconnected: its socket until then, and the socket just closed. -/
structure Disconnect where
  conn : ℕ
  current : Fd
  closed : Fd
  deriving DecidableEq, Repr

/-- The IPC layer. A sender has returned from the locked part of an enqueue and has yet to call
`nos_ipc_process_tx`. The batch holds the events that `epoll_wait` has returned, each with its
descriptor, and `receiving` the socket and the connection of an event handler between its two
calls. -/
structure IpcNode (B : Type*) where
  fds : FdSystem
  opened : Fd → Bool
  conns : ℕ → IpcConn B
  connCount : ℕ
  senders : ℕ → ℕ
  batch : List (Fd × EntryPtr)
  receiving : Option (Fd × ℕ)
  closes : List CloseCall
  disconnects : List Disconnect

/-- A call of `nos_ipc_send_enqueue_ex`, with the socket of a `connect` that fails and the kernel's
answer to the registration of one that succeeds. -/
structure EnqueueCall (B : Type*) where
  nodeName : Option String
  env : EnqueueEnv B
  attempt : ℕ
  registers : Bool
  buf : B

/-- The steps of a node. Sockets, answers to sends and what a `recv` meets come from outside. -/
inductive IpcAction (B : Type*) where
  | ipcInit (fd : ℕ) (listens registers : Bool)
  | enqueue (call : EnqueueCall B)
  | processTx (c : ℕ) (outcomes : List SendOutcome)
  | epollWait (reported : List Fd)
  | accept (listenFd : Fd) (client : Option ℕ) (registers : Bool)
  | passive (fd : Fd) (outcome : RecvOutcome) (registers : Bool)
  | event (fd : Fd) (c : ℕ) (outcomes : List SendOutcome)
  | recv (outcome : RecvOutcome)
  | otherEvent

namespace IpcNode

variable {B : Type*}

def Fresh (s : IpcNode B) (fd : Fd) : Prop := s.opened fd = false ∧ fd ≠ s.fds.thread.notifyFd

instance (s : IpcNode B) (fd : Fd) : Decidable (s.Fresh fd) := inferInstanceAs (Decidable (_ ∧ _))

def openSocket (s : IpcNode B) (fd : Fd) : IpcNode B :=
  { s with opened := Function.update s.opened fd true }

/-- `close`. A descriptor that is not open is refused. -/
def close (s : IpcNode B) (fd : Fd) (isOwned : Bool) : IpcNode B :=
  { s with
    fds := if s.opened fd then s.fds.closeFd fd else s.fds
    opened := Function.update s.opened fd false
    closes := s.closes ++ [⟨fd, s.opened fd, isOwned⟩] }

def addFd (s : IpcNode B) (fd : Fd) (events callback arg : ℕ) (registers : Bool) : IpcNode B :=
  { s with fds := s.fds.addFdEx fd events callback arg registers }

def removeFd (s : IpcNode B) (fd : Fd) : IpcNode B := { s with fds := s.fds.removeFd fd }

def setLink (s : IpcNode B) (c : ℕ) (link : NosIpcConn B) : IpcNode B :=
  { s with conns := Function.update s.conns c { s.conns c with link := link } }

def disconnect (s : IpcNode B) (c : ℕ) (closed : Fd) (link : NosIpcConn B) : IpcNode B :=
  { s.setLink c link with
    disconnects := s.disconnects ++ [⟨c, (s.conns c).link.fd, closed⟩] }

/-- The scan of `get_or_create_conn`. -/
def findConn (s : IpcNode B) (nodeName udsPath : Option String) : Option ℕ :=
  (List.range s.connCount).find? fun c => (s.conns c).Matches nodeName udsPath

/-- `get_or_create_conn` -/
def getOrCreateConn [Inhabited B] (s : IpcNode B) (nodeName udsPath : Option String) :
    Option (ℕ × IpcNode B) :=
  match s.findConn nodeName udsPath with
  | some c => some (c, s)
  | none =>
    if maxRemoteConns ≤ s.connCount then none
    else some (s.connCount, { s with
      conns := Function.update s.conns s.connCount (.create nodeName udsPath)
      connCount := s.connCount + 1 })

def connEvents : ℕ := epollIn ||| epollOut ||| epollEt

/-- What the reconnection of `nos_ipc_send_enqueue_ex` does with sockets. -/
def connectSocket (s : IpcNode B) (c : ℕ) (call : EnqueueCall B) : Option (IpcNode B) :=
  if (s.conns c).link.Reconnects call.env then
    match call.env.connect with
    | .socketFails => some s
    | .connectFails =>
      if s.Fresh call.attempt then some ((s.openSocket call.attempt).close call.attempt true)
      else none
    | .connects fd =>
      if s.Fresh fd then
        some ((s.openSocket fd).addFd fd connEvents eventCallback c call.registers)
      else none
  else some s

/-- `nos_ipc_send_enqueue_ex` up to the unlock. -/
def nosIpcSendEnqueueEx [Inhabited B] (s : IpcNode B) (call : EnqueueCall B) :
    Option (IpcNode B) :=
  match s.getOrCreateConn call.nodeName call.env.udsPath with
  | none => some s
  | some (c, s) =>
    let r := (s.conns c).link.nosIpcSendEnqueueEx call.env call.buf
    (s.connectSocket c call).map fun t =>
      { t.setLink c r.2 with
        senders := if r.1 = .ok then Function.update s.senders c (s.senders c + 1)
          else s.senders }

/-- `nos_ipc_process_tx`. A `send` on a descriptor that is not open fails. -/
def nosIpcProcessTx (s : IpcNode B) (c : ℕ) (outcomes : List SendOutcome) : Option (IpcNode B) :=
  let link := (s.conns c).link
  if s.opened link.fd = true ∨ ∀ outcome ∈ outcomes, outcome = .failed then
    (link.nosIpcProcessTx outcomes).map fun link' =>
      if .failed ∈ outcomes then (s.close link.fd true).disconnect c link.fd link'
      else s.setLink c link'
  else none

/-- `nos_ipc_recv_handler`, with a connection or on a passive entry. -/
def nosIpcRecvHandler [Inhabited B] (s : IpcNode B) (fd : Fd) (conn : Option ℕ)
    (registers : Bool) : RecvOutcome → IpcNode B
  | .dropLink =>
    match conn with
    | some c =>
      ((s.removeFd fd).close fd ((s.conns c).link.fd = fd)).disconnect c fd
        (s.conns c).link.linkGone
    | none =>
      (s.removeFd fd).close fd (s.fds.thread.RegisteredAs fd passiveCallback mgmtThread)
  | .hello payload =>
    match conn with
    | some c => { s with
        conns := Function.update s.conns c { s.conns c with
          nodeName := strncpy 31 (remoteName payload) } }
    | none =>
      match s.getOrCreateConn (some (remoteName payload)) none with
      | none => s
      | some (c, s) =>
        let link := { (s.conns c).link with fd := fd, isConnected := true }
        ((s.setLink c link).removeFd fd).addFd fd connEvents eventCallback c registers
  | _ => s

def Runs (s : IpcNode B) (dispatch : Dispatch) : Prop :=
  s.receiving = none ∧
    s.batch.head?.map (fun event => s.fds.thread.dispatchEvent (some event.2)) = some dispatch

instance (s : IpcNode B) (dispatch : Dispatch) : Decidable (s.Runs dispatch) :=
  inferInstanceAs (Decidable (_ ∧ _))

def nextEvent (s : IpcNode B) : IpcNode B := { s with batch := s.batch.tail }

/-- A node after `nos_scheduler_init_thread` of its management thread. -/
def start [Inhabited B] (notifyFd : Fd) : IpcNode B where
  fds := .init notifyFd
  opened := fun _ => false
  conns := fun _ => .create none none
  connCount := 0
  senders := fun _ => 0
  batch := []
  receiving := none
  closes := []
  disconnects := []

def step [Inhabited B] (s : IpcNode B) : IpcAction B → Option (IpcNode B)
  | .ipcInit fd listens registers =>
    if s.Fresh fd then
      some (if listens then
          (s.openSocket fd).addFd fd epollIn acceptCallback mgmtThread registers
        else (s.openSocket fd).close fd true)
    else none
  | .enqueue call => s.nosIpcSendEnqueueEx call
  | .processTx c outcomes =>
    if 0 < s.senders c then
      { s with senders := Function.update s.senders c (s.senders c - 1) }.nosIpcProcessTx c outcomes
    else none
  | .epollWait reported =>
    if s.batch = [] ∧ s.receiving = none ∧ reported.Nodup ∧ reported.length ≤ maxEvents then
      some { s with batch := reported.filterMap fun fd =>
        (s.fds.thread.epoll fd).map fun ev => (fd, ev.ptr) }
    else none
  | .accept listenFd client registers =>
    if s.Runs (.call acceptCallback listenFd mgmtThread) then
      match client with
      | none => some s.nextEvent
      | some fd =>
        if s.Fresh fd then
          some ((s.nextEvent.openSocket fd).addFd fd epollIn passiveCallback mgmtThread registers)
        else none
    else none
  | .passive fd outcome registers =>
    if s.Runs (.call passiveCallback fd mgmtThread) ∧ (s.opened fd = true ∨ outcome = .dropLink)
    then some (s.nextEvent.nosIpcRecvHandler fd none registers outcome)
    else none
  | .event fd c outcomes =>
    if s.Runs (.call eventCallback fd c) then
      if fd < 0 then some s.nextEvent
      else (s.nextEvent.nosIpcProcessTx c outcomes).map fun t =>
        { t with receiving := some (fd, c) }
    else none
  | .recv outcome =>
    match s.receiving with
    | none => none
    | some (fd, c) =>
      if s.opened fd = true ∨ outcome = .dropLink then
        some ({ s with receiving := none }.nosIpcRecvHandler fd (some c) true outcome)
      else none
  | .otherEvent => if s.Runs .readNotify ∨ s.Runs .skip then some s.nextEvent else none

/-- The socket belongs to a connection, or is one that the management thread has an entry for that
accepts it or has accepted it. -/
def Owned (s : IpcNode B) (fd : Fd) : Prop :=
  (∃ c < s.connCount, (s.conns c).link.fd = fd) ∨
    s.fds.thread.RegisteredAs fd passiveCallback mgmtThread ∨
    s.fds.thread.RegisteredAs fd acceptCallback mgmtThread

/-- The law of the sockets. The owner of every connection is the management thread. -/
structure SocketsOwned (s : IpcNode B) : Prop where
  closes : ∀ call ∈ s.closes, call.isOpen = true ∧ call.isOwned = true
  disconnects : ∀ mark ∈ s.disconnects, mark.closed = mark.current
  connected : ∀ c < s.connCount, (s.conns c).link.isConnected = true →
    s.opened (s.conns c).link.fd = true ∧
      s.fds.thread.RegisteredAs (s.conns c).link.fd eventCallback c
  owned : ∀ fd, s.opened fd = true → s.Owned fd

def NotWaiting (s : IpcNode B) (fd : Fd) : Prop :=
  fd ∉ s.batch.map Prod.fst ∧ ∀ c, s.receiving ≠ some (fd, c)

/-- The condition on a step. What is registered gets a slot of its own, and a `HELLO` names a node
that has no socket yet. No send of the event handler fails. A sender finds its socket, and its
sends fail only while no event of the socket waits. -/
def OwnershipSafe [Inhabited B] (s : IpcNode B) : IpcAction B → Prop
  | .ipcInit _ listens registers => listens = true → s.fds.AddSafe registers
  | .enqueue call => ∀ c t, s.getOrCreateConn call.nodeName call.env.udsPath = some (c, t) →
    (t.conns c).link.Connects call.env → s.fds.AddSafe call.registers
  | .processTx c outcomes =>
    (¬ (s.conns c).link.tx.IsEmpty → 0 ≤ (s.conns c).link.fd) ∧
      (.failed ∈ outcomes → s.NotWaiting (s.conns c).link.fd)
  | .accept _ client registers => client.isSome → s.fds.AddSafe registers
  | .passive fd (.hello payload) registers =>
    ∀ c t, s.nextEvent.getOrCreateConn (some (remoteName payload)) none = some (c, t) →
      (t.conns c).link.fd < 0 ∧ (s.fds.removeFd fd).AddSafe registers
  | .event _ _ outcomes => .failed ∉ outcomes
  | _ => True

end IpcNode

end GeminiNOS

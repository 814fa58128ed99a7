import GeminiNOS.Service.Registry

/-! # Routes to connections

A send for a remote service passes the node name and the path of its entry to
`get_or_create_conn`, which returns the first connection that has the name or the
path. A connection keeps the path that it is made with. Its name is the one of the
service that it is made for, until a `HELLO` names it.
-/

namespace GeminiNOS

open Foundations

/-- What has named a connection: a send for a service, whose path is that of the connection, or a
`HELLO`. -/
inductive NameSource where
  | service (serviceId : ℕ) (udsPath : String)
  | hello
  deriving DecidableEq, Repr

/-- A node name that a connection has been given. -/
structure Naming where
  conn : ℕ
  nodeName : String
  source : NameSource
  deriving DecidableEq, Repr

/-- A buffer for a remote service on a connection, with what the entry of the service had. -/
structure Routed where
  serviceId : ℕ
  nodeName : String
  udsPath : String
  conn : ℕ
  deriving DecidableEq, Repr

/-- The buffer of a message: one of the pool, or one in shared memory, with what the enqueue to the
queue of the remote node answers and the buffer for the event. -/
inductive Carrier (B : Type*) where
  | pool (buf : B)
  | shm (answer : NosStatus) (evtBuf : Option B)

/-- The registry and the IPC layer of a node. The history has the names and paths that services have
been registered with, the names of connections, and the buffers that sends have queued. -/
structure RouteNode (C T B : Type*) where
  reg : ServiceRegistry C T
  ipc : IpcNode B
  registered : ℕ → Option String × Option String
  namings : List Naming
  routed : List Routed

/-- The calls that change the registry, a send, and a step of the IPC layer. The enqueues of the
layer come from the sends. -/
inductive RouteAction (C T B : Type*) where
  | registerProviderBind (serviceId : ℕ) (provider : Option C) (thread : Option T)
  | registerRemoteEx (serviceId : ℕ) (nodeName udsPath : Option String)
  | registerRemote (serviceId : ℕ) (udsPath : Option String)
  | unregisterProvider (serviceId : ℕ)
  | msgSend (dstService : ℕ) (carrier : Carrier B) (call : EnqueueCall B)
  | ipc (action : IpcAction B)

namespace IpcNode

variable {B : Type*} [Inhabited B]

def acceptedOn (s : IpcNode B) (call : EnqueueCall B) : Option ℕ :=
  match s.getOrCreateConn call.nodeName call.env.udsPath with
  | none => none
  | some (c, t) =>
    if ((t.conns c).link.nosIpcSendEnqueueEx call.env call.buf).1 = .ok then some c else none

/-- The connection that the `HELLO` of a step names. -/
def namedByHello (s : IpcNode B) : IpcAction B → Option ℕ
  | .passive _ (.hello payload) _ =>
    (s.nextEvent.getOrCreateConn (some (remoteName payload)) none).map Prod.fst
  | .recv (.hello _) => s.receiving.map Prod.snd
  | _ => none

end IpcNode

namespace RouteNode

variable {C T B : Type*}

/-- The name and the path of a registration, which leaves out what is `NULL`. -/
def setRegistered (s : RouteNode C T B) (serviceId : ℕ) (nodeName udsPath : Option String) :
    ℕ → Option String × Option String :=
  Function.update s.registered serviceId
    (nodeName <|> (s.registered serviceId).1, udsPath <|> (s.registered serviceId).2)

def registerRemote (s : RouteNode C T B) (serviceId : ℕ) (nodeName udsPath : Option String)
    (r : NosStatus × ServiceRegistry C T) : RouteNode C T B :=
  { s with
    reg := r.2
    registered := if r.1 = .ok then s.setRegistered serviceId nodeName udsPath else s.registered }

/-- The name that a call has given to a connection, if it has made one. -/
def newNaming (s : RouteNode C T B) (slot : ServiceSlot C T) (ipc : IpcNode B) : List Naming :=
  if s.ipc.connCount < ipc.connCount then
    [⟨s.ipc.connCount, slot.remoteNodeName, .service slot.serviceId slot.remoteUdsPath⟩]
  else []

variable [Inhabited B]

/-- The arguments that a send passes to `nos_ipc_send_enqueue_ex`. -/
def remoteCall (slot : ServiceSlot C T) (call : EnqueueCall B) (buf : B) : EnqueueCall B :=
  { call with
    nodeName := some slot.remoteNodeName
    env := { call.env with udsPath := some slot.remoteUdsPath }
    buf := buf }

/-- `nos_ipc_send_enqueue_ex`, for a service. -/
def nosIpcSendEnqueueEx (s : RouteNode C T B) (slot : ServiceSlot C T) (call : EnqueueCall B) :
    Option (RouteNode C T B) :=
  (s.ipc.nosIpcSendEnqueueEx call).map fun ipc =>
    { s with
      ipc := ipc
      namings := s.namings ++ s.newNaming slot ipc
      routed := s.routed ++ (s.ipc.acceptedOn call).toList.map fun c =>
        ⟨slot.serviceId, slot.remoteNodeName, slot.remoteUdsPath, c⟩ }

/-- `nos_transport_remote_uds_send`, with `nos_ipc_send_enqueue_shm` for shared memory, which does
not look at what becomes of its event. -/
def nosTransportRemoteUdsSend (s : RouteNode C T B) (slot : ServiceSlot C T)
    (call : EnqueueCall B) : Carrier B → Option (RouteNode C T B)
  | .pool buf => s.nosIpcSendEnqueueEx slot (remoteCall slot call buf)
  | .shm .ok (some evtBuf) => s.nosIpcSendEnqueueEx slot (remoteCall slot call evtBuf)
  | .shm _ _ => some s

/-- `nos_service_msg_send`, as far as it concerns connections. -/
def nosServiceMsgSend (s : RouteNode C T B) (dstService : ℕ) (carrier : Carrier B)
    (call : EnqueueCall B) : Option (RouteNode C T B) :=
  match s.reg.findServiceEntry dstService with
  | none => some s
  | some slot =>
    if slot.isRemote then s.nosTransportRemoteUdsSend slot call carrier else some s

def stepIpc (s : RouteNode C T B) (action : IpcAction B) : Option (RouteNode C T B) :=
  (s.ipc.step action).map fun ipc =>
    { s with
      ipc := ipc
      namings := s.namings ++ (s.ipc.namedByHello action).toList.map fun c =>
        ⟨c, (ipc.conns c).nodeName, .hello⟩ }

def step (s : RouteNode C T B) : RouteAction C T B → Option (RouteNode C T B)
  | .registerProviderBind id provider thread =>
    some { s with reg := (s.reg.nosServiceRegisterProviderBind id provider thread).2 }
  | .registerRemoteEx id nodeName udsPath =>
    some (s.registerRemote id nodeName udsPath
      (s.reg.nosServiceRegisterRemoteEx id nodeName udsPath))
  | .registerRemote id udsPath =>
    some (s.registerRemote id (some "Unknown") udsPath (s.reg.nosServiceRegisterRemote id udsPath))
  | .unregisterProvider id =>
    let r := s.reg.nosServiceUnregisterProvider id
    some { s with
      reg := r.2
      registered := if r.1 = .ok then Function.update s.registered id (none, none)
        else s.registered }
  | .msgSend dstService carrier call => s.nosServiceMsgSend dstService carrier call
  | .ipc (.enqueue _) => none
  | .ipc action => s.stepIpc action

def start (notifyFd : Fd) : RouteNode C T B where
  reg := .zero
  ipc := .start notifyFd
  registered _ := (none, none)
  namings := []
  routed := []

def Named (s : RouteNode C T B) (c : ℕ) (nodeName : String) : Prop :=
  ∃ naming ∈ s.namings, naming.conn = c ∧ naming.nodeName = nodeName

/-- The law of the routes. Entries have the names and paths that their services have been registered
with, as far as these fit. What is queued for a service is on a connection with the path of the
service, or with a name that was the one of its node. Services with different paths share only a
connection that has had the name of the node of one of them. A connection that is named after a
service has the path of that service. -/
structure Routes (s : RouteNode C T B) : Prop where
  registered : ∀ id slot, s.reg.findServiceEntry id = some slot →
    (∀ nodeName, (s.registered id).1 = some nodeName →
      slot.remoteNodeName = strncpy 31 nodeName) ∧
    ∀ udsPath, (s.registered id).2 = some udsPath → slot.remoteUdsPath = strncpy 107 udsPath
  queued : ∀ r ∈ s.routed, r.conn < s.ipc.connCount ∧
    ((s.ipc.conns r.conn).udsPath = r.udsPath ∨ s.Named r.conn r.nodeName)
  shared : ∀ r r', r ∈ s.routed → r' ∈ s.routed → r.conn = r'.conn → r.udsPath ≠ r'.udsPath →
    s.Named r.conn r.nodeName ∨ s.Named r.conn r'.nodeName
  created : ∀ naming ∈ s.namings, ∀ id udsPath, naming.source = .service id udsPath →
    (s.ipc.conns naming.conn).udsPath = udsPath

end RouteNode

end GeminiNOS

import GeminiNOS.Messaging.Node

/-! # The message path

The functions that move buffers between senders, rings, queues and receivers, as
programs over the operations of a node. What decides no reference is asked from
the environment: routes, connections and their flags, the outcomes of `send`, the
datagrams that arrive, and the steps of the components.
-/

namespace GeminiNOS

open Foundations Prog

variable {B T C Q : Type}

abbrev NodeM (B T C Q : Type) : Type → Type 1 :=
  Prog (NodeOp.Resp (B := B) (T := T) (C := C) (Q := Q))

namespace NodeM

def op (o : NodeOp B T C Q) : NodeM B T C Q o.Resp := perform o

def alloc : NodeM B T C Q (Option B) := op .alloc
def loadFreeListHead : NodeM B T C Q (Option B) := op .loadFreeListHead
def loadNextFree (blk : B) : NodeM B T C Q (Option B) := op (.loadNextFree blk)
def casPop (blk : B) (next : Option B) : NodeM B T C Q Bool := op (.casPop blk next)
def storeCount (blk : B) : NodeM B T C Q Unit := op (.storeCount blk)
def retain (buf : B) : NodeM B T C Q Unit := op (.retain buf)
def decRef (owner : RefOwner T C) (buf : B) : NodeM B T C Q Bool := op (.decRef owner buf)
def giveBack (buf : B) : NodeM B T C Q Unit := op (.giveBack buf)
def storeNextFree (blk : B) (head : Option B) : NodeM B T C Q Unit := op (.storeNextFree blk head)
def casPush (blk : B) (head : Option B) : NodeM B T C Q Bool := op (.casPush blk head)
def lock (r : RingId T C) : NodeM B T C Q Unit := op (.lock r)
def unlock (r : RingId T C) : NodeM B T C Q Unit := op (.unlock r)
def isEmpty (r : RingId T C) : NodeM B T C Q Bool := op (.isEmpty r)
def isFull (r : RingId T C) : NodeM B T C Q Bool := op (.isFull r)
def first (r : RingId T C) : NodeM B T C Q B := op (.first r)
def push (r : RingId T C) (buf : B) : NodeM B T C Q Unit := op (.push r buf)
def advance (r : RingId T C) : NodeM B T C Q Unit := op (.advance r)
def shmEnqueue (q : Q) (buf : B) : NodeM B T C Q Bool := op (.shmEnqueue q buf)
def shmDequeue (q : Q) : NodeM B T C Q (Option B) := op (.shmDequeue q)
def ask (question : Question) : NodeM B T C Q (Answer B T C Q question) := op (.ask question)
def askFlag : NodeM B T C Q Bool := ask .flag
def callSend (buf : B) : NodeM B T C Q Unit := op (.callSend buf)
def returnSend (buf : B) (st : NosStatus) : NodeM B T C Q Unit := op (.returnSend buf st)

/-- `nos_buffer_alloc` -/
def nosBufferAlloc : NodeM B T C Q (Option B) := alloc

/-- The loop of `nos_shm_buffer_alloc`. -/
def popFreeList : NodeM B T C Q (Option B) :=
  repeating () fun _ => do
    let head ← loadFreeListHead
    match head with
    | none => pure (.inr none)
    | some blk => do
      let next ← loadNextFree blk
      let popped ← casPop blk next
      if popped then pure (.inr (some blk)) else pure (.inl ())

/-- `nos_shm_buffer_alloc` -/
def nosShmBufferAlloc (size : ℕ) : NodeM B T C Q (Option B) :=
  if 4096 < size then pure none
  else do
    let block ← popFreeList
    match block with
    | none => pure none
    | some blk => do
      storeCount blk
      pure (some blk)

def allocIn (shm : Bool) (size : ℕ) : NodeM B T C Q (Option B) :=
  if shm then nosShmBufferAlloc size else nosBufferAlloc

/-- The loop of `nos_shm_buffer_release`. -/
def pushFreeList (blk : B) : NodeM B T C Q Unit :=
  repeating () fun _ => do
    let head ← loadFreeListHead
    storeNextFree blk head
    let pushed ← casPush blk head
    if pushed then pure (.inr ()) else pure (.inl ())

variable (isShm : B → Bool)

/-- `nos_buffer_release`, which is `nos_shm_buffer_release` for a block of the shared memory. -/
def nosBufferRelease (owner : RefOwner T C) (buf : B) : NodeM B T C Q Unit := do
  let last ← decRef owner buf
  if last then if isShm buf then pushFreeList buf else giveBack buf
  else pure ()

/-- `nos_transport_local_send` -/
def nosTransportLocalSend (buf : B) : Option T → NodeM B T C Q NosStatus
  | none => pure .err
  | some t => do
    lock (.thread t)
    let full ← isFull (.thread t)
    if full then do
      unlock (.thread t)
      pure .errBusy
    else do
      retain buf
      push (.thread t) buf
      unlock (.thread t)
      pure .ok

/-- The loop of `nos_ipc_process_tx`. -/
def txLoop (c : C) : NodeM B T C Q Unit :=
  repeating () fun _ => do
    let empty ← isEmpty (.conn c)
    if empty then pure (.inr ())
    else do
      let buf ← first (.conn c)
      let outcome ← ask .send
      match outcome with
      | SendOutcome.sent => do
        nosBufferRelease isShm (.head (.conn c)) buf
        advance (.conn c)
        pure (.inl ())
      | _ => pure (.inr ())

/-- `nos_ipc_process_tx` -/
def nosIpcProcessTx (c : C) : NodeM B T C Q Unit := do
  lock (.conn c)
  txLoop isShm c
  unlock (.conn c)

/-- The insertion of `nos_ipc_send_hello`, unless the ring is full. -/
def pushHello (c : C) (buf : B) : NodeM B T C Q Unit := do
  let full ← isFull (.conn c)
  if full then pure ()
  else do
    retain buf
    push (.conn c) buf

/-- `nos_ipc_send_hello` -/
def nosIpcSendHello (c : C) : NodeM B T C Q Unit := do
  let chunk ← nosBufferAlloc
  match chunk with
  | none => pure ()
  | some buf => do
    pushHello c buf
    nosBufferRelease isShm .code buf

/-- The reconnection of `nos_ipc_send_enqueue_ex`, if there is one. -/
def reconnect (c : C) : NodeM B T C Q Unit := do
  let connects ← askFlag
  if connects then nosIpcSendHello isShm c else pure ()

/-- The part of `nos_ipc_send_enqueue_ex` behind the reconnection. -/
def enqueueConnected (c : C) (buf : B) : NodeM B T C Q NosStatus := do
  let connected ← askFlag
  if connected = false then do
    unlock (.conn c)
    pure .err
  else do
    let congested ← askFlag
    if congested then do
      unlock (.conn c)
      pure .errBusy
    else do
      let full ← isFull (.conn c)
      if full then do
        unlock (.conn c)
        pure .errBusy
      else do
        retain buf
        push (.conn c) buf
        unlock (.conn c)
        nosIpcProcessTx isShm c
        pure .ok

/-- `nos_ipc_send_enqueue_ex`, on the connection that `get_or_create_conn` finds. -/
def nosIpcSendEnqueueEx (buf : B) : NodeM B T C Q NosStatus := do
  let conn ← ask .conn
  match conn with
  | none => pure .err
  | some c => do
    lock (.conn c)
    reconnect isShm c
    enqueueConnected isShm c buf

/-- The part of `nos_ipc_send_enqueue_shm` behind the enqueue. -/
def ringDoorbell : NodeM B T C Q Unit := do
  let chunk ← nosBufferAlloc
  match chunk with
  | none => pure ()
  | some evt => do
    let _ ← nosIpcSendEnqueueEx isShm evt
    nosBufferRelease isShm .code evt

/-- `nos_ipc_send_enqueue_shm`, into the queue that `nos_shm_get_remote_queue` finds. The flag is
whether the buffer has an offset. -/
def nosIpcSendEnqueueShm (buf : B) : NodeM B T C Q NosStatus := do
  if isShm buf = false then pure .err
  else do
    let queue ← ask .queue
    match queue with
    | none => pure .err
    | some q => do
      let mapped ← askFlag
      if mapped = false then pure .err
      else do
        retain buf
        let ok ← shmEnqueue q buf
        if ok = false then do
          nosBufferRelease isShm .code buf
          pure .errBusy
        else do
          ringDoorbell isShm
          pure .ok

/-- `nos_transport_remote_uds_send` -/
def nosTransportRemoteUdsSend (buf : B) : NodeM B T C Q NosStatus :=
  if isShm buf then nosIpcSendEnqueueShm isShm buf else nosIpcSendEnqueueEx isShm buf

/-- `nos_service_msg_send` -/
def nosServiceMsgSend (buf : B) : NodeM B T C Q NosStatus := do
  let route ← ask .route
  match route with
  | Route.unknown => pure .err
  | Route.toThread thread => nosTransportLocalSend buf thread
  | Route.remote => nosTransportRemoteUdsSend isShm buf

/-- A call of `nos_service_msg_send`, with its record in the history. -/
def sendMsg (buf : B) : NodeM B T C Q Unit := do
  callSend buf
  let st ← nosServiceMsgSend isShm buf
  returnSend buf st

variable [DecidableEq B]

def componentStep (held : List B) : ComponentStep B → NodeM B T C Q (List B ⊕ List B)
  | .done => pure (.inr held)
  | .alloc shm size => do
    let chunk ← allocIn shm size
    pure (.inl (chunk.toList ++ held))
  | .send buf =>
    if buf ∈ held then do
      sendMsg isShm buf
      pure (.inl held)
    else pure (.inl held)
  | .retain buf =>
    if buf ∈ held then do
      retain buf
      pure (.inl (buf :: held))
    else pure (.inl held)
  | .release buf =>
    if buf ∈ held then do
      nosBufferRelease isShm .code buf
      pure (.inl (held.erase buf))
    else pure (.inl held)

/-- The code of components: it sends, retains and releases buffers that it has allocated, and
returns with those that it keeps. -/
def component (held : List B) : NodeM B T C Q (List B) :=
  repeating held fun held => do
    let next ← ask .component
    componentStep isShm held next

/-- `process_thread_messages`, with `on_msg` as the code of a component. -/
def processThreadMessages (t : T) (held : List B) : NodeM B T C Q (List B) :=
  repeating held fun held => do
    lock (.thread t)
    let empty ← isEmpty (.thread t)
    if empty then do
      unlock (.thread t)
      pure (.inr held)
    else do
      let buf ← first (.thread t)
      advance (.thread t)
      unlock (.thread t)
      let held ← component isShm held
      nosBufferRelease isShm .code buf
      pure (.inl held)

/-- The drain loop of `nos_ipc_recv_handler`. -/
def drainQueue (q : Q) : NodeM B T C Q Unit :=
  repeating () fun _ => do
    let msg ← shmDequeue q
    match msg with
    | none => pure (.inr ())
    | some buf => do
      sendMsg isShm buf
      nosBufferRelease isShm .code buf
      pure (.inl ())

/-- What `nos_ipc_recv_handler` does with the datagram in its buffer. -/
def handleArrival (buf : B) : Arrival Q → NodeM B T C Q Unit
  | .shmEvent (some q) => drainQueue isShm q
  | .message => sendMsg isShm buf
  | _ => pure ()

/-- `nos_ipc_recv_handler` -/
def nosIpcRecvHandler : NodeM B T C Q Unit := do
  let arrival ← ask .arrival
  match arrival with
  | Arrival.stop => pure ()
  | arrival => do
    let chunk ← nosBufferAlloc
    match chunk with
    | none => pure ()
    | some buf => do
      handleArrival isShm buf arrival
      nosBufferRelease isShm .code buf

/-- The queue of `nos_scheduler_deinit_thread`. -/
def nosSchedulerDeinitThread (t : T) : NodeM B T C Q Unit := do
  lock (.thread t)
  repeating () fun _ => do
    let empty ← isEmpty (.thread t)
    if empty then pure (.inr ())
    else do
      let buf ← first (.thread t)
      nosBufferRelease isShm (.head (.thread t)) buf
      advance (.thread t)
      pure (.inl ())
  unlock (.thread t)

def task (held : List B) : Task T C → NodeM B T C Q (List B)
  | .component => component isShm held
  | .messages t => processThreadMessages isShm t held
  | .event c => do
    nosIpcProcessTx isShm c
    nosIpcRecvHandler isShm
    pure held
  | .passive => do
    nosIpcRecvHandler isShm
    pure held
  | .deinit t => do
    nosSchedulerDeinitThread isShm t
    pure held

/-- A thread: one task after the other, in any order. -/
def threadMain : NodeM B T C Q Unit :=
  repeating [] fun held => do
    let next ← ask .task
    let held ← task isShm held next
    pure (.inl held)

end NodeM

end GeminiNOS

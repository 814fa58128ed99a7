import GeminiNOS.Buffer.HoldersSound
import GeminiNOS.Ipc.Receive
import GeminiNOS.Ipc.TxOrder
import GeminiNOS.Service.Registry

/-! # The window of what is sent

Threads take buffers from the pool, write messages into their chunks and pass them to
`nos_service_msg_send`. The allocator and the moves of the window set the length of a
buffer; a connection sends as many bytes of it as the header in the chunk announces.
What a released message has left in a chunk is still there for the next one.
-/

namespace GeminiNOS

open Foundations References

/-- Who has references to buffers: the threads, and the rings of the connections. -/
inductive TxHolder (A : Type*) where
  | thread (a : A)
  | ring (c : ℕ)
  deriving DecidableEq

/-- A buffer in a ring: a message that `nos_service_msg_send` has accepted, or a `HELLO` or an SHM
event. -/
structure TxBuffer where
  ref : BufferRef
  isMessage : Bool
  deriving DecidableEq, Repr

/-- A call of `send`, with its number of bytes and the length of the buffer at the time. -/
structure SendCall where
  isMessage : Bool
  fullLen : ℕ
  len : ℕ
  deriving DecidableEq, Repr

/-- The pool with the holders of its buffers, the bytes of each chunk from its `raw_data` on, the
registry, the connections, and the calls of `send` so far. -/
structure SendNode (A C T : Type*) where
  use : BufferUse (TxHolder A)
  mem : BufferRef → ℕ → UInt8
  reg : ServiceRegistry C T
  conns : ℕ → NosIpcConn TxBuffer
  calls : List SendCall

/-- What a thread does with buffers, a write to a chunk, a change of the registry, an enqueue for a
message or an SHM event on the connection that `get_or_create_conn` returns, a turn of the loop of
`nos_ipc_process_tx` with the answer to its `send`, and what becomes of a link. -/
inductive SendAction (A C T : Type*) where
  | use (action : BufferAction A)
  | giveBack (c : ℕ)
  | push (a : A) (r : BufferRef) (size : ℕ)
  | pull (a : A) (r : BufferRef) (size : ℕ)
  | write (r : BufferRef) (pos : ℕ) (bytes : Bytes)
  | register (reg : ServiceRegistry C T)
  | msgSend (a : A) (r : BufferRef) (c : ℕ) (env : EnqueueEnv BufferRef)
  | event (a : A) (r : BufferRef) (c : ℕ) (env : EnqueueEnv BufferRef)
  | processTx (c : ℕ) (outcome : SendOutcome)
  | linkGone (c : ℕ)
  | promote (c fd : ℕ)

def BufferAction.byThread {A : Type*} : BufferAction A → BufferAction (TxHolder A)
  | .alloc a size headroom => .alloc (.thread a) size headroom
  | .retain a r => .retain (.thread a) r
  | .release a r => .release (.thread a) r
  | .giveBack a => .giveBack (.thread a)
  | .give a b r => .give (.thread a) (.thread b) r

/-- The window of a buffer, with the chunk that it is in. -/
structure Window where
  rawData : ℕ
  data : ℕ
  len : ℕ
  deriving DecidableEq, Repr

def NosBuffer.window (buf : NosBuffer) : Window := ⟨buf.rawData, buf.data, buf.len⟩

def NosBufferPool.window? (pool : NosBufferPool) (r : BufferRef) : Option Window :=
  (pool.buffer? r).map NosBuffer.window

/-- The `HELLO` of a reconnection, in the ring. -/
def EnqueueEnv.forRing (env : EnqueueEnv BufferRef) : EnqueueEnv TxBuffer :=
  ⟨env.udsPath, env.connect, env.hello.map (⟨·, false⟩)⟩

def NosIpcConn.puts (conn : NosIpcConn TxBuffer) (env : EnqueueEnv BufferRef) (buf : TxBuffer) :
    List TxBuffer :=
  conn.helloOf env.forRing ++
    if (conn.nosIpcSendEnqueueEx env.forRing buf).1 = .ok then [buf] else []

def writeBytes (mem : ℕ → UInt8) (pos : ℕ) (bytes : Bytes) (i : ℕ) : UInt8 :=
  if pos ≤ i then (bytes[i - pos]?).getD (mem i) else mem i

namespace SendNode

variable {A C T : Type*}

def init (config : List (ℕ × ℕ)) (mem : BufferRef → ℕ → UInt8) : SendNode A C T where
  use := .init config
  mem := mem
  reg := .zero
  conns _ := .create ⟨⟨0, 0⟩, false⟩
  calls := []

/-- The header at the `data` of a buffer. -/
def header (s : SendNode A C T) (r : BufferRef) : NosServiceMsg :=
  let start := (s.use.pool.window? r).elim 0 fun window => window.data - window.rawData
  parseHeader ((List.range sizeofNosServiceMsg).map fun i => s.mem r (start + i))

/-- The `len` of a buffer. -/
def len (s : SendNode A C T) (r : BufferRef) : ℕ := (s.use.pool.window? r).elim 0 Window.len

def Fits (s : SendNode A C T) (r : BufferRef) : Prop :=
  sizeofNosServiceMsg + (s.header r).payloadLen ≤ s.len r

instance (s : SendNode A C T) (r : BufferRef) : Decidable (s.Fits r) :=
  inferInstanceAs (Decidable (_ ≤ _))

def Queued (s : SendNode A C T) (r : BufferRef) : Prop :=
  ∃ c, (⟨r, true⟩ : TxBuffer) ∈ (s.conns c).tx.contents

def setConn (s : SendNode A C T) (c : ℕ) (conn : NosIpcConn TxBuffer) : SendNode A C T :=
  { s with conns := Function.update s.conns c conn }

def write (s : SendNode A C T) (r : BufferRef) (pos : ℕ) (bytes : Bytes) : SendNode A C T :=
  { s with mem := Function.update s.mem r (writeBytes (s.mem r) pos bytes) }

def setPool (s : SendNode A C T) (pool : NosBufferPool) : SendNode A C T :=
  { s with use := { s.use with pool := pool } }

def handOver (a : A) (c : ℕ) (bufs : List TxBuffer) : List (BufferAction (TxHolder A)) :=
  bufs.flatMap fun b => [.retain (.thread a) b.ref, .give (.thread a) (.ring c) b.ref]

/-- The call of `send` for the head of a ring. -/
def sendCall (s : SendNode A C T) (c : ℕ) : SendCall :=
  let buf := (s.conns c).tx.first
  ⟨buf.isMessage, fullMsgLen (s.header buf.ref), s.len buf.ref⟩

variable [DecidableEq A]

/-- `nos_ipc_send_enqueue_ex` on the connection. The references of the ring are those that the
thread takes for it. -/
def nosIpcSendEnqueueEx (s : SendNode A C T) (a : A) (c : ℕ) (env : EnqueueEnv BufferRef)
    (buf : TxBuffer) : Option (SendNode A C T) :=
  (Run.exec BufferUse.step s.use (handOver a c ((s.conns c).puts env buf))).map fun use =>
    { s with use := use }.setConn c ((s.conns c).nosIpcSendEnqueueEx env.forRing buf).2

/-- `nos_service_msg_send`, as far as it concerns connections. -/
def nosServiceMsgSend (s : SendNode A C T) (a : A) (r : BufferRef) (c : ℕ)
    (env : EnqueueEnv BufferRef) : Option (SendNode A C T) :=
  match s.reg.findServiceEntry (s.header r).dstService with
  | none => some s
  | some slot => if slot.isRemote then s.nosIpcSendEnqueueEx a c env ⟨r, true⟩ else some s

/-- A turn of the loop of `nos_ipc_process_tx`. -/
def processTxTurn (s : SendNode A C T) (c : ℕ) (outcome : SendOutcome) :
    Option (SendNode A C T) :=
  let turn := (s.conns c).processTxTurn outcome
  let releases := turn.sent.toList.map fun buf => BufferAction.release (.ring c) buf.ref
  (Run.exec BufferUse.step s.use releases).map fun use =>
    { s with
      use := use
      calls := s.calls ++ if (s.conns c).tx.IsEmpty then [] else [s.sendCall c] }.setConn c
        turn.conn

def step (s : SendNode A C T) : SendAction A C T → Option (SendNode A C T)
  | .use action => (s.use.step action.byThread).map fun use => { s with use := use }
  | .giveBack c => (s.use.step (.giveBack (.ring c))).map fun use => { s with use := use }
  | .push a r size =>
    if s.use.Holds (.thread a) r then (s.use.pool.nosBufferPush r size).map s.setPool else none
  | .pull a r size =>
    if s.use.Holds (.thread a) r then (s.use.pool.nosBufferPull r size).map s.setPool else none
  | .write r pos bytes => some (s.write r pos bytes)
  | .register reg => some { s with reg := reg }
  | .msgSend a r c env =>
    if s.use.Holds (.thread a) r then s.nosServiceMsgSend a r c env else none
  | .event a r c env =>
    if s.use.Holds (.thread a) r then s.nosIpcSendEnqueueEx a c env ⟨r, false⟩ else none
  | .processTx c outcome => s.processTxTurn c outcome
  | .linkGone c => some (s.setConn c (s.conns c).linkGone)
  | .promote c fd => some (s.setConn c ((s.conns c).promote fd))

/-- The call of `nos_service_msg_send` queues its buffer for a remote node. -/
def Accepts (s : SendNode A C T) (r : BufferRef) (c : ℕ) (env : EnqueueEnv BufferRef) : Prop :=
  (∃ slot, s.reg.findServiceEntry (s.header r).dstService = some slot ∧ slot.isRemote = true) ∧
    (s.conns c).Accepts env.forRing

/-- Every `send` of a message has stayed in the window of its buffer, and those to come for the
queued ones do. -/
structure InWindow (s : SendNode A C T) : Prop where
  calls : ∀ call ∈ s.calls, call.isMessage = true → call.fullLen ≤ call.len
  queued : ∀ r, s.Queued r → s.Fits r

/-- The condition on a step. A message that is accepted has a header whose length is inside its
window, and what threads do to the window and the bytes of a queued message leaves it so. No buffer
gets more than `2 ^ 32` references. -/
def SendFits (s : SendNode A C T) : SendAction A C T → Prop
  | .use action => s.use.CountFits action.byThread
  | .push _ r size => s.Queued r → ∀ pool, s.use.pool.nosBufferPush r size = some pool →
    (s.setPool pool).Fits r
  | .pull _ r size => s.Queued r → ∀ pool, s.use.pool.nosBufferPull r size = some pool →
    (s.setPool pool).Fits r
  | .write r pos bytes => s.Queued r → (s.write r pos bytes).Fits r
  | .msgSend a r c env =>
    Run.Guarded BufferUse.step BufferUse.CountFits s.use
      (handOver a c ((s.conns c).puts env ⟨r, true⟩)) ∧ (s.Accepts r c env → s.Fits r)
  | .event a r c env =>
    Run.Guarded BufferUse.step BufferUse.CountFits s.use
      (handOver a c ((s.conns c).puts env ⟨r, false⟩))
  | _ => True

end SendNode

end GeminiNOS

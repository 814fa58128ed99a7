import GeminiNOS.Basic
import GeminiNOS.Foundations.Ring

/-! # Connections

A connection queues the buffers for a remote node in a ring, under a lock. The
functions below are what a call does while it holds the lock: the enqueue with its
reconnection, and the turns of the loop that sends.
-/

namespace GeminiNOS

open Foundations

/-- `TX_QUEUE_SIZE` -/
def txQueueSize : ℕ := 1024

/-- `TX_HIGH_WATERMARK` -/
def txHighWatermark : ℕ := 900

/-- `TX_LOW_WATERMARK` -/
def txLowWatermark : ℕ := 200

/-- The part of `nos_ipc_conn_t` that sending works on. -/
structure NosIpcConn (B : Type*) where
  fd : Fd
  tx : RingBuffer B txQueueSize
  isConnected : Bool
  isCongested : Bool

/-- What `socket` and `connect` answer. -/
inductive ConnectOutcome where
  | socketFails
  | connectFails
  | connects (fd : ℕ)
  deriving DecidableEq, Repr

def ConnectOutcome.opens : ConnectOutcome → Bool
  | .connects _ => true
  | _ => false

/-- What an enqueue depends on besides the connection: the path it is called with, the answer to a
reconnection, and the buffer that `nos_ipc_send_hello` gets for its message. -/
structure EnqueueEnv (B : Type*) where
  udsPath : Option String
  connect : ConnectOutcome
  hello : Option B

/-- The outcome of `send` on the head of the ring. -/
inductive SendOutcome where
  | sent
  | again
  | failed
  deriving DecidableEq, Repr

/-- A turn of the loop of `nos_ipc_process_tx`: the connection after it, the buffer that has been
sent, and whether the call returns. -/
structure TxTurn (B : Type*) where
  conn : NosIpcConn B
  sent : Option B
  returns : Bool

namespace NosIpcConn

variable {B : Type*}

/-- A connection as `get_or_create_conn` makes it. -/
def create (null : B) : NosIpcConn B where
  fd := -1
  tx := .init null (by decide)
  isConnected := false
  isCongested := false

/-- `used`, as it is computed from the head and the tail. -/
def used (conn : NosIpcConn B) : ℕ :=
  if conn.tx.head ≤ conn.tx.tail then conn.tx.tail - conn.tx.head
  else txQueueSize - (conn.tx.head - conn.tx.tail)

/-- `nos_ipc_send_hello` -/
def nosIpcSendHello (conn : NosIpcConn B) : Option B → NosIpcConn B
  | none => conn
  | some buf => if conn.tx.IsFull then conn else { conn with tx := conn.tx.push buf }

/-- The connection has no socket, and the call has a path to connect one to. -/
def Reconnects (conn : NosIpcConn B) (env : EnqueueEnv B) : Prop :=
  conn.fd < 0 ∧ env.udsPath.any (· ≠ "Passive")

instance (conn : NosIpcConn B) (env : EnqueueEnv B) : Decidable (conn.Reconnects env) :=
  inferInstanceAs (Decidable (_ ∧ _))

/-- The connection with a socket that `connect` has opened. -/
def linkUp (conn : NosIpcConn B) (fd : ℕ) : NosIpcConn B :=
  { conn with fd := fd, isConnected := true, isCongested := false }

/-- The reconnection at the start of `nos_ipc_send_enqueue_ex`. -/
def reconnect (conn : NosIpcConn B) (env : EnqueueEnv B) : NosIpcConn B :=
  if conn.Reconnects env then
    match env.connect with
    | .connects fd => (conn.linkUp fd).nosIpcSendHello env.hello
    | _ => conn
  else conn

/-- The rest of `nos_ipc_send_enqueue_ex` under the lock. -/
def enqueueTx (conn : NosIpcConn B) (buf : B) : NosStatus × NosIpcConn B :=
  if conn.isConnected = false then (.err, conn)
  else if txHighWatermark < conn.used then (.errBusy, { conn with isCongested := true })
  else if conn.tx.IsFull then (.errBusy, conn)
  else (.ok, { conn with tx := conn.tx.push buf })

/-- What `nos_ipc_send_enqueue_ex` does under the lock. -/
def nosIpcSendEnqueueEx (conn : NosIpcConn B) (env : EnqueueEnv B) (buf : B) :
    NosStatus × NosIpcConn B :=
  (conn.reconnect env).enqueueTx buf

/-- The connection after a send error: its socket is closed, its ring is kept. -/
def linkFailed (conn : NosIpcConn B) : NosIpcConn B :=
  { conn with fd := -1, isConnected := false, isCongested := false }

/-- The end of the congestion, once the ring is below the low watermark. -/
def relieve (conn : NosIpcConn B) : NosIpcConn B :=
  if conn.isCongested ∧ conn.used < txLowWatermark then { conn with isCongested := false } else conn

/-- A turn of the loop of `nos_ipc_process_tx`, or what follows the loop. -/
def processTxTurn (conn : NosIpcConn B) (outcome : SendOutcome) : TxTurn B :=
  if conn.tx.IsEmpty then ⟨conn.relieve, none, true⟩
  else
    match outcome with
    | .sent => ⟨{ conn with tx := conn.tx.advance }, some conn.tx.first, false⟩
    | .again => ⟨conn, none, true⟩
    | .failed => ⟨conn.linkFailed, none, true⟩

/-- The connection after the peer has closed it, or has broken the protocol. -/
def linkGone (conn : NosIpcConn B) : NosIpcConn B := { conn with fd := -1, isConnected := false }

/-- The connection after the `HELLO` on an accepted socket has named its node. -/
def promote (conn : NosIpcConn B) (fd : ℕ) : NosIpcConn B :=
  { conn with fd := fd, isConnected := true }

def Connects (conn : NosIpcConn B) (env : EnqueueEnv B) : Prop :=
  conn.Reconnects env ∧ env.connect.opens

instance (conn : NosIpcConn B) (env : EnqueueEnv B) : Decidable (conn.Connects env) :=
  inferInstanceAs (Decidable (_ ∧ _))

/-- The number of buffers before the new one, which a new socket starts with a `HELLO`. -/
def backlog (conn : NosIpcConn B) (env : EnqueueEnv B) : ℕ :=
  conn.tx.used + if conn.Connects env ∧ env.hello.isSome then 1 else 0

/-- The connection has a socket or gets one, and its ring is not above the high watermark. -/
def Accepts (conn : NosIpcConn B) (env : EnqueueEnv B) : Prop :=
  (conn.isConnected ∨ conn.Connects env) ∧ conn.backlog env ≤ txHighWatermark

variable {conn : NosIpcConn B} {env : EnqueueEnv B} {buf : B} {hello : Option B}
  {outcome : SendOutcome}

@[simp] theorem fd_nosIpcSendHello : (conn.nosIpcSendHello hello).fd = conn.fd := by
  unfold nosIpcSendHello
  split
  · rfl
  · split <;> rfl

@[simp] theorem isConnected_nosIpcSendHello :
    (conn.nosIpcSendHello hello).isConnected = conn.isConnected := by
  unfold nosIpcSendHello
  split
  · rfl
  · split <;> rfl

@[simp] theorem tx_linkUp {fd : ℕ} : (conn.linkUp fd).tx = conn.tx := rfl
@[simp] theorem isConnected_linkUp {fd : ℕ} : (conn.linkUp fd).isConnected = true := rfl

theorem used_eq : conn.used = conn.tx.used := conn.tx.used_eq.symm

/-- The `HELLO` goes behind what the ring holds. -/
theorem contents_nosIpcSendHello (conn : NosIpcConn B) (hello : Option B) :
    conn.tx.contents <+: (conn.nosIpcSendHello hello).tx.contents := by
  unfold nosIpcSendHello
  split
  · exact List.prefix_rfl
  · split
    · exact List.prefix_rfl
    · rw [conn.tx.contents_push ‹_›]
      exact List.prefix_append ..

theorem used_nosIpcSendHello (conn : NosIpcConn B) (hello : Option B)
    (hfull : ¬ conn.tx.IsFull) : (conn.nosIpcSendHello hello).tx.used =
      conn.tx.used + if hello.isSome then 1 else 0 := by
  cases hello with
  | none => rfl
  | some buf =>
    show (if conn.tx.IsFull then conn else _).tx.used = _
    rw [if_neg hfull]
    exact conn.tx.used_push hfull

theorem reconnect_of_not_connects (h : ¬ conn.Connects env) : conn.reconnect env = conn := by
  unfold reconnect
  split
  · split
    · exact absurd ⟨‹_›, by simp [ConnectOutcome.opens, *]⟩ h
    · rfl
  · rfl

theorem reconnect_of_connects (h : conn.Connects env) :
    ∃ fd, conn.reconnect env = (conn.linkUp fd).nosIpcSendHello env.hello := by
  obtain ⟨hre, hopens⟩ := h
  unfold reconnect
  rw [if_pos hre]
  cases hconnect : env.connect with
  | socketFails => simp [hconnect, ConnectOutcome.opens] at hopens
  | connectFails => simp [hconnect, ConnectOutcome.opens] at hopens
  | connects fd => exact ⟨fd, rfl⟩

theorem contents_reconnect : conn.tx.contents <+: (conn.reconnect env).tx.contents := by
  by_cases h : conn.Connects env
  · obtain ⟨fd, hfd⟩ := reconnect_of_connects h
    rw [hfd]
    exact contents_nosIpcSendHello (conn.linkUp fd) env.hello
  · simp [reconnect_of_not_connects h]

theorem isConnected_reconnect :
    (conn.reconnect env).isConnected ↔ conn.isConnected ∨ conn.Connects env := by
  by_cases h : conn.Connects env
  · obtain ⟨fd, hfd⟩ := reconnect_of_connects h
    simp [hfd, h]
  · simp [reconnect_of_not_connects h, h]

/-- The test against the high watermark counts the `HELLO` of a new socket. -/
theorem used_reconnect_le :
    (conn.reconnect env).used ≤ txHighWatermark ↔ conn.backlog env ≤ txHighWatermark := by
  rw [used_eq, backlog]
  by_cases h : conn.Connects env
  · obtain ⟨fd, hfd⟩ := reconnect_of_connects h
    rw [hfd]
    by_cases hfull : conn.tx.IsFull
    · have hused := conn.tx.isFull_iff.mp hfull
      have hle := (contents_nosIpcSendHello (conn.linkUp fd) env.hello).length_le
      simp only [RingBuffer.length_contents, tx_linkUp] at hle
      unfold txQueueSize txHighWatermark at *
      omega
    · rw [used_nosIpcSendHello (conn.linkUp fd) env.hello hfull]
      simp [h]
  · simp [reconnect_of_not_connects h, h]

theorem not_isFull_of_used_le (h : conn.used ≤ txHighWatermark) : ¬ conn.tx.IsFull := by
  rw [used_eq] at h
  rw [conn.tx.isFull_iff]
  unfold txQueueSize txHighWatermark at *
  omega

theorem contents_enqueueTx : conn.tx.contents <+: (conn.enqueueTx buf).2.tx.contents := by
  unfold enqueueTx
  split
  · exact List.prefix_rfl
  · split
    · exact List.prefix_rfl
    · split
      · exact List.prefix_rfl
      · rw [conn.tx.contents_push ‹_›]
        exact List.prefix_append ..

theorem contents_nosIpcSendEnqueueEx (conn : NosIpcConn B) (env : EnqueueEnv B) (buf : B) :
    conn.tx.contents <+: (conn.nosIpcSendEnqueueEx env buf).2.tx.contents :=
  contents_reconnect.trans contents_enqueueTx

theorem nosIpcSendEnqueueEx_ok_iff (conn : NosIpcConn B) (env : EnqueueEnv B) (buf : B) :
    (conn.nosIpcSendEnqueueEx env buf).1 = .ok ↔ conn.Accepts env := by
  unfold nosIpcSendEnqueueEx enqueueTx Accepts
  rw [← isConnected_reconnect, ← used_reconnect_le]
  split
  · simp [*]
  · split
    · simp [*, Nat.not_le.mpr ‹_›]
    · have hle := Nat.not_lt.mp ‹¬ txHighWatermark < _›
      rw [if_neg (not_isFull_of_used_le hle)]
      simp_all

/-- A buffer whose enqueue returns `NOS_OK` is the last one in the ring. -/
theorem contents_of_ok (conn : NosIpcConn B) (env : EnqueueEnv B) (buf : B)
    (h : (conn.nosIpcSendEnqueueEx env buf).1 = .ok) :
    (conn.nosIpcSendEnqueueEx env buf).2.tx.contents =
      (conn.reconnect env).tx.contents ++ [buf] := by
  have haccepts := (nosIpcSendEnqueueEx_ok_iff conn env buf).mp h
  unfold Accepts at haccepts
  rw [← isConnected_reconnect, ← used_reconnect_le] at haccepts
  obtain ⟨hconnected, hle⟩ := haccepts
  have hfull := not_isFull_of_used_le hle
  unfold nosIpcSendEnqueueEx enqueueTx
  rw [if_neg (by simp [hconnected]), if_neg (Nat.not_lt.mpr hle), if_neg hfull]
  exact RingBuffer.contents_push _ hfull

theorem enqueueTx_fd : (conn.enqueueTx buf).2.fd = conn.fd ∧
    (conn.enqueueTx buf).2.isConnected = conn.isConnected := by
  unfold enqueueTx
  split
  · exact ⟨rfl, rfl⟩
  · split
    · exact ⟨rfl, rfl⟩
    · split <;> exact ⟨rfl, rfl⟩

theorem link_enqueue (conn : NosIpcConn B) (env : EnqueueEnv B) (buf : B) :
    (¬ conn.Connects env ∧ (conn.nosIpcSendEnqueueEx env buf).2.fd = conn.fd ∧
      (conn.nosIpcSendEnqueueEx env buf).2.isConnected = conn.isConnected) ∨
    (∃ fd : ℕ, conn.Reconnects env ∧ env.connect = .connects fd ∧
      (conn.nosIpcSendEnqueueEx env buf).2.fd = fd ∧
      (conn.nosIpcSendEnqueueEx env buf).2.isConnected = true) := by
  have htx : ((conn.reconnect env).enqueueTx buf).2.fd = (conn.reconnect env).fd ∧
      ((conn.reconnect env).enqueueTx buf).2.isConnected = (conn.reconnect env).isConnected :=
    enqueueTx_fd
  unfold nosIpcSendEnqueueEx
  rw [htx.1, htx.2]
  rcases Classical.em (conn.Connects env) with hconnects | hconnects
  · obtain ⟨hre, hopens⟩ := hconnects
    right
    cases hconnect : env.connect with
    | socketFails => simp [hconnect, ConnectOutcome.opens] at hopens
    | connectFails => simp [hconnect, ConnectOutcome.opens] at hopens
    | connects fd =>
      refine ⟨fd, hre, rfl, ?_⟩
      simp [reconnect, hre, hconnect, linkUp]
  · left
    rw [reconnect_of_not_connects hconnects]
    exact ⟨hconnects, rfl, rfl⟩

theorem relieve_fd : conn.relieve.fd = conn.fd ∧ conn.relieve.isConnected = conn.isConnected := by
  unfold relieve
  split <;> exact ⟨rfl, rfl⟩

@[simp] theorem tx_relieve : conn.relieve.tx = conn.tx := by
  unfold relieve
  split <;> rfl

/-- A turn of the sending loop takes off the head exactly if it has been sent. -/
theorem contents_processTxTurn (conn : NosIpcConn B) (outcome : SendOutcome) :
    conn.tx.contents = (conn.processTxTurn outcome).sent.toList ++
      (conn.processTxTurn outcome).conn.tx.contents := by
  unfold processTxTurn
  split
  · simp
  · cases outcome with
    | sent => exact conn.tx.contents_advance ‹_›
    | again => rfl
    | failed => rfl

theorem sent_of_returns (conn : NosIpcConn B) (outcome : SendOutcome)
    (h : (conn.processTxTurn outcome).returns) :
    (conn.processTxTurn outcome).sent = none := by
  unfold processTxTurn at h ⊢
  split
  · rfl
  · cases outcome with
    | sent => simp_all
    | again => rfl
    | failed => rfl

end NosIpcConn

end GeminiNOS

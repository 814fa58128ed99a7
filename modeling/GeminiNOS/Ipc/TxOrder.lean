import GeminiNOS.Foundations.Run
import GeminiNOS.Ipc.Conn

/-! # The order of what a connection sends

Enqueues and `HELLO` messages go into the ring of a connection, and successful sends
take them out, over any number of sockets. What has gone in is at all times what has
been sent, followed by what the ring holds.
-/

namespace GeminiNOS

open Foundations

/-- A message that has gone into the ring, from an enqueue or as a `HELLO`. -/
structure TxEntry (B : Type*) where
  fromEnqueue : Bool
  buf : B

/-- What can happen to a connection. Everything but the first three leaves its ring alone. -/
inductive TxAction (B : Type*) where
  | enqueue (env : EnqueueEnv B) (buf : B)
  | sendHello (hello : Option B)
  | processTx (outcome : SendOutcome)
  | linkGone
  | promote (fd : ℕ)

/-- A connection, with the messages that have gone into its ring, the buffers whose enqueue has
returned `NOS_OK`, and the buffers that have been sent, in their orders. -/
structure TxHistory (B : Type*) where
  conn : NosIpcConn B
  queued : List (TxEntry B)
  accepted : List B
  sent : List B

namespace NosIpcConn

variable {B : Type*} {conn : NosIpcConn B} {env : EnqueueEnv B} {buf : B}

/-- The `HELLO` that goes into the ring. -/
def helloPut (conn : NosIpcConn B) (hello : Option B) : List B :=
  if conn.tx.IsFull then [] else hello.toList

/-- The `HELLO` that an enqueue puts into the ring. -/
def helloOf (conn : NosIpcConn B) (env : EnqueueEnv B) : List B :=
  if conn.Connects env then conn.helloPut env.hello else []

theorem contents_sendHello (conn : NosIpcConn B) (hello : Option B) :
    (conn.nosIpcSendHello hello).tx.contents = conn.tx.contents ++ conn.helloPut hello := by
  unfold nosIpcSendHello helloPut
  cases hello with
  | none => simp
  | some buf =>
    dsimp only
    split
    · simp
    · exact conn.tx.contents_push ‹_›

theorem contents_reconnect_eq :
    (conn.reconnect env).tx.contents = conn.tx.contents ++ conn.helloOf env := by
  unfold helloOf
  split
  · obtain ⟨fd, hfd⟩ := reconnect_of_connects ‹_›
    rw [hfd, contents_sendHello]
    rfl
  · rw [reconnect_of_not_connects ‹_›, List.append_nil]

theorem contents_enqueueTx_of_ne (h : (conn.enqueueTx buf).1 ≠ .ok) :
    (conn.enqueueTx buf).2.tx = conn.tx := by
  unfold enqueueTx at h ⊢
  split
  · rfl
  · split
    · rfl
    · split
      · rfl
      · simp_all

theorem contents_enqueue (conn : NosIpcConn B) (env : EnqueueEnv B) (buf : B) :
    (conn.nosIpcSendEnqueueEx env buf).2.tx.contents = conn.tx.contents ++ (conn.helloOf env ++
      if (conn.nosIpcSendEnqueueEx env buf).1 = .ok then [buf] else []) := by
  rw [← List.append_assoc, ← contents_reconnect_eq]
  split
  · exact contents_of_ok conn env buf ‹_›
  · rw [List.append_nil]
    exact congrArg RingBuffer.contents (contents_enqueueTx_of_ne ‹_›)

end NosIpcConn

namespace TxHistory

variable {B : Type*} {s s' : TxHistory B} {a : TxAction B}

def start (null : B) : TxHistory B := ⟨.create null, [], [], []⟩

def step (s : TxHistory B) : TxAction B → TxHistory B
  | .enqueue env buf =>
    let r := s.conn.nosIpcSendEnqueueEx env buf
    let hellos := (s.conn.helloOf env).map (⟨false, ·⟩)
    if r.1 = .ok then
      { s with
        conn := r.2
        queued := s.queued ++ hellos ++ [⟨true, buf⟩]
        accepted := s.accepted ++ [buf] }
    else { s with conn := r.2, queued := s.queued ++ hellos }
  | .sendHello hello =>
    { s with
      conn := s.conn.nosIpcSendHello hello
      queued := s.queued ++ (s.conn.helloPut hello).map (⟨false, ·⟩) }
  | .processTx outcome =>
    let turn := s.conn.processTxTurn outcome
    { s with conn := turn.conn, sent := s.sent ++ turn.sent.toList }
  | .linkGone => { s with conn := s.conn.linkGone }
  | .promote fd => { s with conn := s.conn.promote fd }

/-- What has gone into the ring has been sent or is in the ring, in order, with the accepted buffers
among it in the order of their enqueues. -/
structure InOrder (s : TxHistory B) : Prop where
  split : s.queued.map TxEntry.buf = s.sent ++ s.conn.tx.contents
  accepted : (s.queued.filter TxEntry.fromEnqueue).map TxEntry.buf = s.accepted

/-- The law of the ring. Each slot from the head to the tail holds what has gone into it. -/
structure Kept (s : TxHistory B) : Prop extends InOrder s where
  slots : ∀ k < s.conn.used, ∃ entry, s.queued[s.sent.length + k]? = some entry ∧
    s.conn.tx.slots ((s.conn.tx.head + k) % txQueueSize) = entry.buf
  used_eq : s.sent.length + s.conn.used = s.queued.length
  used_lt : s.conn.used < txQueueSize

theorem InOrder.kept (h : s.InOrder) : s.Kept := by
  have hlen := congrArg List.length h.split
  rw [List.length_map, List.length_append, RingBuffer.length_contents,
    ← NosIpcConn.used_eq] at hlen
  refine ⟨h, fun k hk => ?_, hlen.symm, ?_⟩
  · have hlt : s.sent.length + k < s.queued.length := by omega
    refine ⟨s.queued[s.sent.length + k], List.getElem?_eq_getElem hlt, ?_⟩
    have hget := congrArg (·[s.sent.length + k]?) h.split
    rw [NosIpcConn.used_eq] at hk
    simp only [List.getElem?_map, List.getElem?_eq_getElem hlt, Option.map_some,
      List.getElem?_append_right (Nat.le_add_right _ k), Nat.add_sub_cancel_left,
      RingBuffer.contents, List.getElem?_range hk] at hget
    exact (Option.some.inj hget).symm
  · rw [NosIpcConn.used_eq]
    exact s.conn.tx.used_lt

theorem filter_hellos (hellos : List B) :
    (hellos.map fun buf => (⟨false, buf⟩ : TxEntry B)).filter TxEntry.fromEnqueue = [] := by
  simp [List.filter_eq_nil_iff]

theorem map_hellos (hellos : List B) :
    (hellos.map fun buf => (⟨false, buf⟩ : TxEntry B)).map TxEntry.buf = hellos := by
  rw [List.map_map]
  exact List.map_id hellos

theorem InOrder.step (h : s.InOrder) (a : TxAction B) : (s.step a).InOrder := by
  cases a with
  | enqueue env buf =>
    have hcontents := s.conn.contents_enqueue env buf
    simp only [TxHistory.step]
    split
    · rw [if_pos ‹_›] at hcontents
      constructor
      · simp only [List.map_append, map_hellos, h.split, hcontents, List.append_assoc,
          List.map_cons, List.map_nil]
      · simp [List.filter_append, filter_hellos, h.accepted]
    · rw [if_neg ‹_›, List.append_nil] at hcontents
      constructor
      · simp only [List.map_append, map_hellos, h.split, hcontents, List.append_assoc]
      · simp [List.filter_append, filter_hellos, h.accepted]
  | sendHello hello =>
    constructor
    · simp only [TxHistory.step, List.map_append, map_hellos, h.split,
        NosIpcConn.contents_sendHello, List.append_assoc]
    · simp [TxHistory.step, List.filter_append, filter_hellos, h.accepted]
  | processTx outcome =>
    constructor
    · simp only [TxHistory.step, List.append_assoc, h.split,
        ← s.conn.contents_processTxTurn outcome]
    · exact h.accepted
  | linkGone => exact ⟨h.split, h.accepted⟩
  | promote fd => exact ⟨h.split, h.accepted⟩

theorem inOrder_start (null : B) : (start null).InOrder := by
  constructor
  · show [] = [] ++ (NosIpcConn.create null).tx.contents
    rw [NosIpcConn.create, RingBuffer.contents_init, List.append_nil]
  · rfl

/-- Whatever happens to a connection, its ring loses, repeats, reorders and overwrites nothing. -/
theorem always_kept (null : B) (actions : List (TxAction B)) :
    Run.Always (fun s a => some (step s a)) Kept (start null) actions := by
  refine Run.always_of_invariant (I := InOrder) ?_ (fun _ h => h.kept) (inOrder_start null)
  rintro s a s' h ⟨⟩
  exact h.step a

end TxHistory

end GeminiNOS

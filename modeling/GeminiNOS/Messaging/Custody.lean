import GeminiNOS.Foundations.Moves
import GeminiNOS.Ipc.TxOrder
import GeminiNOS.Messaging.NodePair

/-! # The places of messages

A buffer is in the ring of a connection, unread on a socket, in a receive queue or in
the queue of a thread. Sends only add to these places, so that what they do to them and
to the history is said once for each function.
-/

namespace GeminiNOS

open Foundations

/-- A place for buffers. The name has the node that it is at. -/
inductive Place (T K : Type*) where
  | ring (n : Bool) (k : K)
  | socket (n : Bool) (i : ℕ)
  | shm (n : Bool)
  | thread (n : Bool) (t : T)
  deriving DecidableEq

namespace Place

variable {T K : Type*}

def IsLink : Place T K → Prop
  | ring _ _ | socket _ _ => True
  | _ => False

def receiver : Place T K → Bool
  | ring n _ => !n
  | socket n _ | shm n | thread n _ => n

end Place

def MsgBuf.Carries (buf : MsgBuf) (m : AcceptedMsg) : Prop :=
  buf.msg = some m.id ∧ buf.dstService = m.service

instance (buf : MsgBuf) (m : AcceptedMsg) : Decidable (buf.Carries m) :=
  inferInstanceAs (Decidable (_ ∧ _))

namespace NodePair

variable {T K C : Type*}

/-- The buffers at a place. A receive queue has those of the claims that have not been returned. -/
def bufs (s : NodePair T K C) : Place T K → List MsgBuf
  | .ring n k => (s.conn n k).tx.contents
  | .socket n i => s.inbox n i
  | .shm n => (s.claimed n).drop (s.queue n).returned.length
  | .thread n t => (s.msgQueue n t).contents

def Held (s : NodePair T K C) (m : AcceptedMsg) : Prop :=
  ∃ p : Place T K, p.receiver = m.receiver ∧ ∃ buf ∈ s.bufs p, buf.Carries m

/-- The message is at some place on its way, its provider has got it, or it has been counted. -/
def Settled (s : NodePair T K C) (m : AcceptedMsg) : Prop :=
  s.Held m ∨ m.id ∈ s.dispatched ∨ ∃ c, (c, m.id) ∈ s.counted

/-- What a change does to the places, and what it adds to the history. -/
structure Passage (s t : NodePair T K C) (leaves comes : Place T K → MsgBuf → Prop)
    (counts : IpcCounter → MsgBuf → Prop) : Prop where
  moves : Moves s.bufs t.bufs leaves comes
  next_le : s.next ≤ t.next
  dispatched : ∀ id ∈ s.dispatched, id ∈ t.dispatched
  counted : ∀ x ∈ s.counted, x ∈ t.counted
  counts : ∀ c id, (c, id) ∈ t.counted →
    (c, id) ∈ s.counted ∨ ∃ buf : MsgBuf, counts c buf ∧ buf.msg = some id

variable {s t r : NodePair T K C} {leaves leaves' comes comes' : Place T K → MsgBuf → Prop}
  {counts counts' : IpcCounter → MsgBuf → Prop} {n : Bool} {m : AcceptedMsg} {buf : MsgBuf}

namespace Passage

theorem of_moves (h : Moves s.bufs t.bufs leaves comes) (hn : t.next = s.next)
    (hd : t.dispatched = s.dispatched) (hc : t.counted = s.counted) :
    Passage s t leaves comes counts where
  moves := h
  next_le := hn.ge
  dispatched _ hid := hd ▸ hid
  counted _ hx := hc ▸ hx
  counts _ _ hx := .inl (hc ▸ hx)

theorem of_eq (h : t.bufs = s.bufs) (hn : t.next = s.next) (hd : t.dispatched = s.dispatched)
    (hc : t.counted = s.counted) : Passage s t leaves comes counts :=
  of_moves (h ▸ Moves.refl s.bufs) hn hd hc

theorem trans (h₁ : Passage s t leaves comes counts) (h₂ : Passage t r leaves comes counts) :
    Passage s r leaves comes counts where
  moves := h₁.moves.trans h₂.moves
  next_le := h₁.next_le.trans h₂.next_le
  dispatched id hid := h₂.dispatched id (h₁.dispatched id hid)
  counted x hx := h₂.counted x (h₁.counted x hx)
  counts c id hx := by
    rcases h₂.counts c id hx with hx | hx
    · exact h₁.counts c id hx
    · exact .inr hx

theorem mono (h : Passage s t leaves comes counts) (hl : ∀ p b, leaves p b → leaves' p b)
    (hc : ∀ p b, comes p b → comes' p b) (hn : ∀ c b, counts c b → counts' c b) :
    Passage s t leaves' comes' counts' where
  moves := h.moves.mono hl hc
  next_le := h.next_le
  dispatched := h.dispatched
  counted := h.counted
  counts c id hx := by
    rcases h.counts c id hx with hx | ⟨buf, hbuf, hid⟩
    · exact .inl hx
    · exact .inr ⟨buf, hn c buf hbuf, hid⟩

theorem settled (h : Passage s t leaves comes counts) (hm : s.Settled m)
    (hl : ∀ p b, p.receiver = m.receiver → b ∈ s.bufs p → b.Carries m → leaves p b → t.Settled m) :
    t.Settled m := by
  rcases hm with ⟨p, hp, b, hb, hcarries⟩ | hm | ⟨c, hc⟩
  · rcases h.moves.leave p b hb with hb' | hb'
    · exact .inl ⟨p, hp, b, hb', hcarries⟩
    · exact hl p b hp hb hcarries hb'
  · exact .inr (.inl (h.dispatched m.id hm))
  · exact .inr (.inr ⟨c, h.counted _ hc⟩)

end Passage

/-- What does not concern the links stays as it is. -/
structure Frame (s t : NodePair T K C) : Prop where
  registry : t.registry = s.registry
  owed : t.owed = s.owed
  queue : t.queue = s.queue
  claimed : t.claimed = s.claimed
  call : t.call = s.call

theorem Frame.refl (s : NodePair T K C) : Frame s s := ⟨rfl, rfl, rfl, rfl, rfl⟩

theorem Frame.trans (h₁ : Frame s t) (h₂ : Frame t r) : Frame s r where
  registry := h₂.registry.trans h₁.registry
  owed := h₂.owed.trans h₁.owed
  queue := h₂.queue.trans h₁.queue
  claimed := h₂.claimed.trans h₁.claimed
  call := h₂.call.trans h₁.call

theorem bufs_setQueue_of_returned {queue : NosShmMpscQueue T}
    (h : queue.returned = (s.queue n).returned) : (s.setQueue n queue).bufs = s.bufs := by
  ext1 p
  cases p with
  | shm n' => by_cases hn : n' = n <;> simp [bufs, setQueue, hn, h]
  | _ => rfl

def Counts (c : IpcCounter) (buf : MsgBuf) (c' : IpcCounter) (b : MsgBuf) : Prop :=
  c' = c ∧ b = buf

theorem passage_count (s : NodePair T K C) (c : IpcCounter) (buf : MsgBuf) :
    Passage s (s.count c buf) leaves comes (Counts c buf) where
  moves := Moves.refl s.bufs
  next_le := le_rfl
  dispatched _ hid := hid
  counted _ hx := List.mem_append_right _ hx
  counts c' id hx := by
    rcases List.mem_append.mp hx with hx | hx
    · obtain ⟨id', hid, heq⟩ := List.mem_map.mp hx
      cases heq
      exact .inr ⟨buf, ⟨rfl, rfl⟩, Option.mem_toList.mp hid⟩
    · exact .inl hx

theorem mem_counted_count {c : IpcCounter} {id : MsgId} (h : buf.msg = some id) :
    (c, id) ∈ (s.count c buf).counted := by
  apply List.mem_append_left
  simp [h]

theorem bufs_connectSocket (s : NodePair T K C) (n : Bool) (conn : NosIpcConn MsgBuf)
    (env : EnqueueEnv MsgBuf) : (s.connectSocket n conn env).bufs = s.bufs := by
  unfold connectSocket
  split
  · split <;> rfl
  · rfl

theorem msg_of_mem_helloOf {conn : NosIpcConn MsgBuf} {env : SendEnv K} {udsPath : String}
    {b : MsgBuf} (h : b ∈ conn.helloOf (env.toEnqueue udsPath)) :
    b.msg = none := by
  unfold NosIpcConn.helloOf NosIpcConn.helloPut at h
  split at h
  · split at h
    · cases h
    · obtain ⟨bytes, -, rfl⟩ := Option.map_eq_some_iff.mp (Option.mem_toList.mp h)
      rfl
  · cases h

section Places

variable [DecidableEq T] [DecidableEq K] {k : K} {th : T} {i : ℕ} {conn : NosIpcConn MsgBuf}
  {ring : RingBuffer MsgBuf maxQueueSize} {env : SendEnv K} {udsPath : String} {bs : List MsgBuf}

theorem bufs_setInbox (s : NodePair T K C) (n : Bool) (i : ℕ) (bs : List MsgBuf) :
    (s.setInbox n i bs).bufs = Function.update s.bufs (.socket n i) bs := by
  ext1 p
  cases p with
  | socket n' i' =>
    by_cases hn : n' = n <;> by_cases hi : i' = i <;> simp [bufs, setInbox, hn, hi]
  | _ => rfl

theorem bufs_setConn (s : NodePair T K C) (n : Bool) (k : K) (conn : NosIpcConn MsgBuf) :
    (s.setConn n k conn).bufs = Function.update s.bufs (.ring n k) conn.tx.contents := by
  ext1 p
  cases p with
  | ring n' k' =>
    by_cases hn : n' = n <;> by_cases hk : k' = k <;> simp [bufs, setConn, hn, hk]
  | _ => rfl

theorem bufs_setMsgQueue (s : NodePair T K C) (n : Bool) (th : T)
    (ring : RingBuffer MsgBuf maxQueueSize) :
    (s.setMsgQueue n th ring).bufs = Function.update s.bufs (.thread n th) ring.contents := by
  ext1 p
  cases p with
  | thread n' th' =>
    by_cases hn : n' = n <;> by_cases ht : th' = th <;> simp [bufs, setMsgQueue, hn, ht]
  | _ => rfl

theorem bufs_setQueue (s : NodePair T K C) (n : Bool) (queue : NosShmMpscQueue T)
    (bs : List MsgBuf) :
    ({ s.setQueue n queue with claimed := Function.update s.claimed n bs } : NodePair T K C).bufs =
      Function.update s.bufs (.shm n) (bs.drop queue.returned.length) := by
  ext1 p
  cases p with
  | shm n' => by_cases hn : n' = n <;> simp [bufs, setQueue, hn]
  | _ => rfl

abbrev Stays : Place T K → MsgBuf → Prop := fun _ _ => False

def Enqueued (n : Bool) (buf : MsgBuf) (p : Place T K) (b : MsgBuf) : Prop :=
  (∃ k, p = .ring n k) ∧ (b.msg = none ∨ b = buf)

def Queued (n : Bool) (buf : MsgBuf) (p : Place T K) (b : MsgBuf) : Prop :=
  (∃ th, p = .thread n th) ∧ b = buf

omit [DecidableEq K] in
/-- A local send puts its buffer into the queue of the thread, or it is refused. -/
theorem nosTransportLocalSend_cases (s : NodePair T K C) (n : Bool) (buf : MsgBuf)
    (thread : Option T) :
    (s.nosTransportLocalSend n buf thread).1 ≠ .ok ∧
        (s.nosTransportLocalSend n buf thread).2 = s ∨
      ∃ th ∈ thread, ¬ (s.msgQueue n th).IsFull ∧ s.nosTransportLocalSend n buf thread =
        (.ok, s.setMsgQueue n th ((s.msgQueue n th).push buf)) := by
  cases thread with
  | none => exact .inl ⟨by simp [nosTransportLocalSend], rfl⟩
  | some th =>
    by_cases hfull : (s.msgQueue n th).IsFull
    · exact .inl (by simp [nosTransportLocalSend, hfull])
    · exact .inr ⟨th, rfl, hfull, if_neg hfull⟩

theorem passage_nosTransportLocalSend (s : NodePair T K C) (n : Bool) (buf : MsgBuf)
    (thread : Option T) :
    Passage s (s.nosTransportLocalSend n buf thread).2 Stays (Queued n buf) counts := by
  rcases s.nosTransportLocalSend_cases n buf thread with ⟨-, he⟩ | ⟨th, -, hfull, he⟩ <;> rw [he]
  · exact .of_eq rfl rfl rfl rfl
  · refine .of_moves ?_ rfl rfl rfl
    rw [bufs_setMsgQueue, RingBuffer.contents_push _ hfull]
    apply Moves.append
    intro b hb
    exact ⟨⟨th, rfl⟩, List.mem_singleton.mp hb⟩

omit [DecidableEq K] in
theorem frame_nosTransportLocalSend (s : NodePair T K C) (n : Bool) (buf : MsgBuf)
    (thread : Option T) : Frame s (s.nosTransportLocalSend n buf thread).2 := by
  rcases s.nosTransportLocalSend_cases n buf thread with ⟨-, he⟩ | ⟨th, -, -, he⟩ <;> rw [he]
  · exact .refl s
  · exact ⟨rfl, rfl, rfl, rfl, rfl⟩

theorem mem_bufs_of_nosTransportLocalSend {thread : Option T}
    (h : (s.nosTransportLocalSend n buf thread).1 = .ok) :
    ∃ th, buf ∈ (s.nosTransportLocalSend n buf thread).2.bufs (.thread n th) := by
  rcases s.nosTransportLocalSend_cases n buf thread with ⟨hne, -⟩ | ⟨th, -, hfull, he⟩
  · exact absurd h hne
  · refine ⟨th, ?_⟩
    rw [he, bufs_setMsgQueue, Function.update_self, RingBuffer.contents_push _ hfull]
    exact List.mem_append_right _ (List.mem_singleton_self buf)

theorem passage_setConn_enqueue (s : NodePair T K C) (n : Bool) (k : K) (udsPath : String)
    (buf : MsgBuf) (env : SendEnv K) :
    Passage s ((s.connectSocket n (s.conn n k) (env.toEnqueue udsPath)).setConn n k
      ((s.conn n k).nosIpcSendEnqueueEx (env.toEnqueue udsPath) buf).2) Stays (Enqueued n buf)
      counts := by
  refine .of_moves ?_ ?_ ?_ ?_
  · rw [bufs_setConn, bufs_connectSocket, NosIpcConn.contents_enqueue]
    apply Moves.append
    intro b hb
    refine ⟨⟨k, rfl⟩, ?_⟩
    rcases List.mem_append.mp hb with hb | hb
    · exact .inl (msg_of_mem_helloOf hb)
    · split at hb
      · exact .inr (List.mem_singleton.mp hb)
      · cases hb
  all_goals
    unfold connectSocket
    split
    · split <;> rfl
    · rfl

omit [DecidableEq T] in
theorem frame_setConn_enqueue (s : NodePair T K C) (n : Bool) (k : K)
    (conn conn' : NosIpcConn MsgBuf) (env : EnqueueEnv MsgBuf) :
    Frame s ((s.connectSocket n conn env).setConn n k conn') := by
  unfold connectSocket
  split
  · split <;> exact ⟨rfl, rfl, rfl, rfl, rfl⟩
  · exact ⟨rfl, rfl, rfl, rfl, rfl⟩

theorem passage_nosIpcSendEnqueueEx (s : NodePair T K C) (n : Bool) (udsPath : String)
    (buf : MsgBuf) (env : SendEnv K) :
    Passage s (s.nosIpcSendEnqueueEx n udsPath buf env).2 Stays (Enqueued n buf)
      (Counts .droppedFull buf) := by
  unfold nosIpcSendEnqueueEx
  cases env.conn with
  | none => exact .of_eq rfl rfl rfl rfl
  | some k =>
    have h : Passage s _ Stays (Enqueued n buf) (Counts .droppedFull buf) :=
      s.passage_setConn_enqueue n k udsPath buf env
    dsimp only
    split
    · exact h.trans (passage_count _ .droppedFull buf)
    · exact h

omit [DecidableEq T] in
theorem frame_nosIpcSendEnqueueEx (s : NodePair T K C) (n : Bool) (udsPath : String)
    (buf : MsgBuf) (env : SendEnv K) : Frame s (s.nosIpcSendEnqueueEx n udsPath buf env).2 := by
  unfold nosIpcSendEnqueueEx
  cases env.conn with
  | none => exact .refl s
  | some k =>
    have h := s.frame_setConn_enqueue n k (s.conn n k)
      ((s.conn n k).nosIpcSendEnqueueEx (env.toEnqueue udsPath) buf).2 (env.toEnqueue udsPath)
    dsimp only
    split
    · exact h.trans ⟨rfl, rfl, rfl, rfl, rfl⟩
    · exact h

theorem mem_bufs_of_nosIpcSendEnqueueEx
    (h : (s.nosIpcSendEnqueueEx n udsPath buf env).1 = .ok) :
    ∃ k, buf ∈ (s.nosIpcSendEnqueueEx n udsPath buf env).2.bufs (.ring n k) := by
  unfold nosIpcSendEnqueueEx at h ⊢
  cases hconn : env.conn with
  | none => simp [hconn] at h
  | some k =>
    simp only [hconn] at h ⊢
    refine ⟨k, ?_⟩
    rw [if_neg (by rw [h]; decide), bufs_setConn, Function.update_self,
      NosIpcConn.contents_enqueue, if_pos h]
    simp

/-- What `nos_service_msg_send` does: nothing, a local send, an enqueue of a pool message, or the
start of a send in shared memory. -/
theorem nosServiceMsgSend_cases (s : NodePair T K C) (n : Bool) (th : T) (buf : MsgBuf)
    (env : SendEnv K) :
    s.nosServiceMsgSend n th buf env = (some .err, s) ∨
    (∃ entry ∈ (s.registry n).findServiceEntry buf.dstService, entry.isRemote = false ∧
      s.nosServiceMsgSend n th buf env =
        (some (s.nosTransportLocalSend n buf entry.localThread).1,
          (s.nosTransportLocalSend n buf entry.localThread).2)) ∨
    (s.registry n).RoutesAway buf.dstService ∧
      ((∃ udsPath, env.shmOffset = none ∧ s.nosServiceMsgSend n th buf env =
        (some (s.nosIpcSendEnqueueEx n udsPath buf env).1,
          (s.nosIpcSendEnqueueEx n udsPath buf env).2)) ∨
      ∃ udsPath offset, env.shmOffset = some offset ∧ offset ≠ 0 ∧
        s.nosServiceMsgSend n th buf env =
          (none, (s.setQueue (!n) ((s.queue (!n)).setProducer th (.loadTail offset))).setCall n th
            (.enqueue udsPath buf))) := by
  unfold nosServiceMsgSend
  cases hentry : (s.registry n).findServiceEntry buf.dstService with
  | none => exact .inl rfl
  | some entry =>
    cases hremote : entry.isRemote with
    | false => exact .inr (.inl ⟨entry, rfl, hremote, by simp [hremote]⟩)
    | true =>
      simp only [hremote, if_true, nosTransportRemoteUdsSend]
      cases hoffset : env.shmOffset with
      | none => exact .inr (.inr ⟨⟨entry, hentry, hremote⟩, .inl ⟨_, rfl, rfl⟩⟩)
      | some offset =>
        simp only [nosIpcSendEnqueueShm]
        split <;> rename_i hfails
        · exact .inl rfl
        · exact .inr (.inr ⟨⟨entry, hentry, hremote⟩,
            .inr ⟨_, offset, rfl, (not_or.mp hfails).2, rfl⟩⟩)

end Places

end NodePair

end GeminiNOS

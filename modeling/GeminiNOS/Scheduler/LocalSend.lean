import GeminiNOS.Basic
import GeminiNOS.Foundations.Ring
import GeminiNOS.Foundations.Run

/-! # Local messages

Senders put buffers into the ring of a thread in `nos_transport_local_send`, and
the thread takes them out in `process_thread_messages`. Both work on the ring only
under `queue_lock`, so that a locked section is one step. A buffer in the ring has
a reference of its own, which the thread gives up when it has dispatched it.
-/

namespace GeminiNOS

open Foundations

/-- The ring of a thread, the buffer that the thread dispatches, and the `ref_cnt` of all buffers,
with the sends accepted and the buffers taken so far. -/
structure LocalThread (B : Type*) where
  msgQueue : RingBuffer B maxQueueSize
  refCnt : B → Int32
  buf : Option B
  accepted : List B
  taken : List B

/-- A send, the locked section of a turn of `process_thread_messages`, the release that ends the
turn, and a retain or a release of a buffer by any other code. -/
inductive LocalAction (B : Type*) where
  | send (buf : B)
  | take
  | release
  | retainElsewhere (buf : B)
  | releaseElsewhere (buf : B)

namespace LocalThread

variable {B : Type*} [DecidableEq B]

def init (null : B) (refCnt : B → Int32) : LocalThread B where
  msgQueue := .init null maxQueueSize_pos
  refCnt := refCnt
  buf := none
  accepted := []
  taken := []

/-- Change the `ref_cnt` of a buffer. -/
def addRef (s : LocalThread B) (buf : B) (d : Int32) : LocalThread B :=
  { s with refCnt := Function.update s.refCnt buf (s.refCnt buf + d) }

def enqueue (s : LocalThread B) (buf : B) : LocalThread B :=
  { s with msgQueue := s.msgQueue.push buf, accepted := s.accepted ++ [buf] }

/-- What `nos_transport_local_send` does under the lock. -/
def nosTransportLocalSend (s : LocalThread B) (buf : B) : NosStatus × LocalThread B :=
  if s.msgQueue.IsFull then (.errBusy, s) else (.ok, (s.addRef buf 1).enqueue buf)

/-- What a turn of `process_thread_messages` does under the lock. -/
def takeMessage (s : LocalThread B) : LocalThread B :=
  if s.msgQueue.IsEmpty then s
  else { s with
    buf := some s.msgQueue.first
    msgQueue := s.msgQueue.advance
    taken := s.taken ++ [s.msgQueue.first] }

/-- The effect of an action; a turn starts when the turn before it has ended. -/
def step (s : LocalThread B) : LocalAction B → Option (LocalThread B)
  | .send buf => some (s.nosTransportLocalSend buf).2
  | .take => if s.buf.isSome then none else some s.takeMessage
  | .release => s.buf.map fun buf => { s.addRef buf (-1) with buf := none }
  | .retainElsewhere buf => some (s.addRef buf 1)
  | .releaseElsewhere buf => some (s.addRef buf (-1))

variable {s s' : LocalThread B} {buf : B}

/-- The buffers taken and those in the ring are the accepted ones, in their order. -/
def InOrder (s : LocalThread B) : Prop := s.taken ++ s.msgQueue.contents = s.accepted

def pending (s : LocalThread B) : ℕ := s.accepted.length - s.taken.length

/-- A send fails exactly with `MAX_QUEUE_SIZE - 1` messages pending, and then changes nothing. -/
def SendSound (s : LocalThread B) (buf : B) : Prop :=
  ((s.nosTransportLocalSend buf).1 = .errBusy ↔ s.pending = maxQueueSize - 1) ∧
  ((s.nosTransportLocalSend buf).1 = .errBusy → (s.nosTransportLocalSend buf).2 = s) ∧
  ((s.nosTransportLocalSend buf).1 ≠ .errBusy → (s.nosTransportLocalSend buf).1 = .ok ∧
    (s.nosTransportLocalSend buf).2.accepted = s.accepted ++ [buf])

omit [DecidableEq B] in
theorem inOrder_init (null : B) (refCnt : B → Int32) : (init null refCnt).InOrder := by
  simp [InOrder, init, RingBuffer.contents_init]

theorem InOrder.addRef (h : s.InOrder) (d : Int32) : (s.addRef buf d).InOrder := h

omit [DecidableEq B] in
theorem InOrder.enqueue (h : s.InOrder) (hfull : ¬ s.msgQueue.IsFull) :
    (s.enqueue buf).InOrder := by
  show s.taken ++ (s.msgQueue.push buf).contents = s.accepted ++ [buf]
  rw [s.msgQueue.contents_push hfull, ← List.append_assoc, h]

theorem InOrder.send (h : s.InOrder) : (s.nosTransportLocalSend buf).2.InOrder := by
  unfold nosTransportLocalSend
  split
  · exact h
  · exact (h.addRef 1).enqueue ‹_›

omit [DecidableEq B] in
theorem InOrder.takeMessage (h : s.InOrder) : s.takeMessage.InOrder := by
  unfold LocalThread.takeMessage
  split
  · exact h
  · show s.taken ++ [s.msgQueue.first] ++ s.msgQueue.advance.contents = s.accepted
    rw [List.append_assoc, List.singleton_append, ← s.msgQueue.contents_advance ‹_›, h]

theorem InOrder.step (h : s.InOrder) {action : LocalAction B} (hs : s.step action = some s') :
    s'.InOrder := by
  cases action with
  | send buf =>
    obtain rfl := Option.some.inj hs
    exact h.send
  | take =>
    simp only [LocalThread.step] at hs
    split at hs
    · cases hs
    · obtain rfl := Option.some.inj hs
      exact h.takeMessage
  | release =>
    obtain ⟨buf, -, rfl⟩ := Option.map_eq_some_iff.mp hs
    exact h
  | retainElsewhere buf =>
    obtain rfl := Option.some.inj hs
    exact h
  | releaseElsewhere buf =>
    obtain rfl := Option.some.inj hs
    exact h

omit [DecidableEq B] in
theorem InOrder.pending_eq (h : s.InOrder) : s.pending = s.msgQueue.used := by
  rw [pending, ← h, List.length_append, Nat.add_sub_cancel_left, s.msgQueue.length_contents]

theorem InOrder.sendSound (h : s.InOrder) (buf : B) : s.SendSound buf := by
  have hfull := s.msgQueue.isFull_iff
  rw [← h.pending_eq] at hfull
  unfold SendSound nosTransportLocalSend
  split
  · have hbusy : s.pending = maxQueueSize - 1 := by
      have := hfull.mp ‹_›
      omega
    exact ⟨iff_of_true rfl hbusy, fun _ => rfl, fun hne => absurd rfl hne⟩
  · have hroom : s.pending ≠ maxQueueSize - 1 := by
      intro he
      refine ‹¬ s.msgQueue.IsFull› (hfull.mpr ?_)
      rw [he]
      rfl
    refine ⟨iff_of_false ?_ hroom, ?_, fun _ => ⟨rfl, rfl⟩⟩
    · rintro ⟨⟩
    · rintro ⟨⟩

omit [DecidableEq B] in
theorem InOrder.drained (h : s.InOrder) (hempty : s.msgQueue.IsEmpty) : s.taken = s.accepted := by
  rw [← h, s.msgQueue.contents_of_isEmpty hempty, List.append_nil]

/-- The ring hands on the accepted sends in their order, and refuses a send only when it is full. -/
def Fifo (s : LocalThread B) : Prop :=
  s.InOrder ∧ (s.msgQueue.IsEmpty → s.taken = s.accepted) ∧ ∀ buf, s.SendSound buf

/-- Local messages arrive in the order of their sends, in every run. -/
theorem always_fifo (null : B) (refCnt : B → Int32) (actions : List (LocalAction B)) :
    Run.Always step Fifo (init null refCnt) actions :=
  Run.always_of_invariant (fun _ _ _ h hs => h.step hs)
    (fun _ h => ⟨h, h.drained, h.sendSound⟩) (inOrder_init null refCnt)

end LocalThread

end GeminiNOS

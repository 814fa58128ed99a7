import GeminiNOS.Foundations.Run
import GeminiNOS.Shm.MpscQueue

/-! # The registry of nodes in shared memory

A node that starts claims a slot, copies its name into it and resets the indices of
the receive queue of the slot, in separate steps. A node that starts again takes the
slot that has its name. Other nodes look up a queue by the name of its node, slot by
slot, at any time.
-/

namespace GeminiNOS

open Foundations

/-- The length of `nodes` and of `rx_queues`. -/
def maxShmNodes : ℕ := 16

/-- The indices of a `nos_shm_mpsc_queue_t`. -/
structure QueueIndices where
  head : ℕ
  tail : ℕ
  deriving DecidableEq, Repr

def QueueIndices.enqueue (q : QueueIndices) : QueueIndices :=
  if (q.tail + 1) % nosShmQueueSize = q.head then q
  else { q with tail := (q.tail + 1) % nosShmQueueSize }

def QueueIndices.dequeue (q : QueueIndices) : QueueIndices :=
  if q.head = q.tail then q else { q with head := (q.head + 1) % nosShmQueueSize }

/-- Where a node stands in the registration of `nos_shm_init`. -/
inductive ShmInitPc where
  | down
  | scan (i : ℕ)
  | compare (i : ℕ)
  | naming (i : ℕ)
  | resetHead (i : ℕ)
  | resetTail (i : ℕ)
  | ready
  | failed
  deriving DecidableEq, Repr

/-- The registry and the indices of the queues, the nodes by their names, with their
`g_local_queue_idx`, and the lookups in progress, each with the next slot to look at. The history
has the queues that nodes have taken as their local ones, the queues that lookups have returned, and
what enqueues and dequeues alone have made of the indices of a queue since a lookup has returned
it. -/
structure ShmNodes (L : Type*) where
  inUse : ℕ → Bool
  nodeName : ℕ → Bytes
  rxQueues : ℕ → QueueIndices
  pc : Bytes → ShmInitPc
  localQueueIdx : Bytes → Option ℕ
  lookingUp : L → Option (Bytes × ℕ)
  locals : List (Bytes × ℕ)
  lookups : List (Bytes × ℕ)
  expected : ℕ → QueueIndices

/-- The start of a node, the next step of its start, its end, the start and the next step of a
lookup, an enqueue to a queue that a lookup has returned, and a dequeue of a node from its own. -/
inductive ShmNodesAction (L : Type*) where
  | start (node : Bytes)
  | next (node : Bytes)
  | crash (node : Bytes)
  | lookup (l : L) (name : Bytes)
  | look (l : L)
  | enqueue (i : ℕ)
  | dequeue (node : Bytes)

namespace ShmNodes

variable {L : Type*}

/-- The registry as `_nos_shm_create_and_init` leaves it. -/
def init : ShmNodes L where
  inUse _ := false
  nodeName _ := []
  rxQueues _ := ⟨0, 0⟩
  pc _ := .down
  localQueueIdx _ := none
  lookingUp _ := none
  locals := []
  lookups := []
  expected _ := ⟨0, 0⟩

def setPc (s : ShmNodes L) (node : Bytes) (pc : ShmInitPc) : ShmNodes L :=
  { s with pc := Function.update s.pc node pc }

def setLocal (s : ShmNodes L) (node : Bytes) (i : ℕ) : ShmNodes L :=
  { s with
    localQueueIdx := Function.update s.localQueueIdx node (some i)
    locals := s.locals ++ [(node, i)] }

def LookedUp (s : ShmNodes L) (i : ℕ) : Prop := ∃ name, (name, i) ∈ s.lookups

instance (s : ShmNodes L) (i : ℕ) : Decidable (s.LookedUp i) :=
  decidable_of_iff (∃ x ∈ s.lookups, x.2 = i)
    ⟨fun ⟨x, hx, he⟩ => ⟨x.1, he ▸ hx⟩, fun ⟨name, hx⟩ => ⟨(name, i), hx, rfl⟩⟩

def returnQueue (s : ShmNodes L) (name : Bytes) (i : ℕ) : ShmNodes L :=
  { s with
    lookups := s.lookups ++ [(name, i)]
    expected := if s.LookedUp i then s.expected else Function.update s.expected i (s.rxQueues i) }

def useQueue (s : ShmNodes L) (i : ℕ) (f : QueueIndices → QueueIndices) : ShmNodes L :=
  { s with
    rxQueues := Function.update s.rxQueues i (f (s.rxQueues i))
    expected := Function.update s.expected i (f (s.expected i)) }

/-- The next step of the registration in `nos_shm_init`. -/
def stepInit (s : ShmNodes L) (node : Bytes) : Option (ShmNodes L) :=
  match s.pc node with
  | .down | .ready | .failed => none
  | .scan i =>
    if maxShmNodes ≤ i then some (s.setPc node .failed)
    else if s.inUse i then some (s.setPc node (.compare i))
    else some ({ s with inUse := Function.update s.inUse i true }.setPc node (.naming i))
  | .compare i =>
    if s.nodeName i = node then some ((s.setLocal node i).setPc node .ready)
    else some (s.setPc node (.scan (i + 1)))
  | .naming i =>
    some (({ s with nodeName := Function.update s.nodeName i (node.take 31) }.setLocal
      node i).setPc node (.resetHead i))
  | .resetHead i =>
    some ({ s with
      rxQueues := Function.update s.rxQueues i { s.rxQueues i with head := 0 } }.setPc
        node (.resetTail i))
  | .resetTail i =>
    some ({ s with
      rxQueues := Function.update s.rxQueues i { s.rxQueues i with tail := 0 } }.setPc
        node .ready)

variable [DecidableEq L]

/-- The next step of `nos_shm_get_remote_queue`. -/
def stepLookup (s : ShmNodes L) (l : L) : Option (ShmNodes L) :=
  (s.lookingUp l).map fun (name, i) =>
    if maxShmNodes ≤ i then { s with lookingUp := Function.update s.lookingUp l none }
    else if s.inUse i ∧ s.nodeName i = name then
      { s.returnQueue name i with lookingUp := Function.update s.lookingUp l none }
    else { s with lookingUp := Function.update s.lookingUp l (some (name, i + 1)) }

def step (s : ShmNodes L) : ShmNodesAction L → Option (ShmNodes L)
  | .start node => if s.pc node = .down then some (s.setPc node (.scan 0)) else none
  | .next node => s.stepInit node
  | .crash node => some ({ s with
      localQueueIdx := Function.update s.localQueueIdx node none }.setPc node .down)
  | .lookup l name =>
    if s.lookingUp l = none then
      some { s with lookingUp := Function.update s.lookingUp l (some (name, 0)) }
    else none
  | .look l => s.stepLookup l
  | .enqueue i => if s.LookedUp i then some (s.useQueue i .enqueue) else none
  | .dequeue node => (s.localQueueIdx node).map fun i => s.useQueue i .dequeue

/-- The agreement of the nodes. A lookup returns the queue of the node of that name, a node takes
the same queue whenever it starts, and the indices of a queue that a lookup has returned are those
that enqueues and dequeues have made. -/
structure Agreed (s : ShmNodes L) : Prop where
  lookups : ∀ name i, (name, i) ∈ s.lookups →
    (name, i) ∈ s.locals ∧ ∀ node, (node, i) ∈ s.locals → node = name
  sameSlot : ∀ node i j, (node, i) ∈ s.locals → (node, j) ∈ s.locals → i = j
  restarts : ∀ node i, (node, i) ∈ s.locals → s.pc node ≠ .failed
  indices : ∀ i, s.LookedUp i → s.rxQueues i = s.expected i

/-- The condition on a step. Names have 1 to 31 bytes, no lookup is for the empty name, and a reset
finds the index of a queue that a lookup has returned already at zero. -/
def Orderly (s : ShmNodes L) : ShmNodesAction L → Prop
  | .start node => node ≠ [] ∧ node.length ≤ 31
  | .lookup _ name => name ≠ []
  | .next node => ∀ i, s.LookedUp i →
    (s.pc node = .resetHead i → (s.rxQueues i).head = 0) ∧
      (s.pc node = .resetTail i → (s.rxQueues i).tail = 0)
  | _ => True

end ShmNodes

end GeminiNOS

import GeminiNOS.Foundations.Agents
import GeminiNOS.Foundations.IndexChain
import GeminiNOS.Foundations.Ring
import GeminiNOS.Ipc.Conn
import GeminiNOS.Shm.MpscQueue
import Mathlib.Data.Multiset.Count
import Mathlib.Data.Fintype.Sum
import Mathlib.Tactic.DeriveFintype

/-! # References to buffers

The operations of the message path on reference counts, pools, rings and queues.
Each is one step of a thread. Threads lock a ring while they work on it, and they
take blocks of shared memory from a list without a lock. What a thread holds is
recorded beside the state: the references that its code has taken and not yet given
up, the block that it takes off the list or puts on it, and the contents of the
ring that it has locked.
-/

namespace GeminiNOS

open Foundations

/-- The rings of buffers: the message queues of the threads and the rings of the connections. -/
inductive RingId (T C : Type) where
  | thread (t : T)
  | conn (c : C)
  deriving DecidableEq, Fintype

def RingId.size {T C : Type} : RingId T C → ℕ
  | thread _ => maxQueueSize
  | conn _ => txQueueSize

theorem RingId.size_pos {T C : Type} (r : RingId T C) : 0 < r.size := by
  cases r
  · exact Nat.succ_pos _
  · exact Nat.succ_pos _

/-- Whose reference a release gives up: one of the code, or the one of the head of a ring. -/
inductive RefOwner (T C : Type) where
  | code
  | head (r : RingId T C)

/-- Where `nos_service_msg_send` finds a service. -/
inductive Route (T : Type) where
  | unknown
  | toThread (thread : Option T)
  | remote

/-- What `nos_ipc_recv_handler` meets: nothing to allocate for, or what the datagram is. -/
inductive Arrival (Q : Type) where
  | stop
  | partialRecv
  | hello
  | shmEvent (queue : Option Q)
  | message

/-- What a component does next with the buffers that it has. -/
inductive ComponentStep (B : Type) where
  | done
  | alloc (isShm : Bool) (size : ℕ)
  | send (buf : B)
  | retain (buf : B)
  | release (buf : B)

/-- What a thread does next. -/
inductive Task (T C : Type) where
  | component
  | messages (t : T)
  | event (c : C)
  | passive
  | deinit (t : T)

/-- What the environment of a program decides. -/
inductive Question where
  | flag
  | size
  | conn
  | queue
  | route
  | send
  | arrival
  | component
  | task

def Answer (B T C Q : Type) : Question → Type
  | .flag => Bool
  | .size => ℕ
  | .conn => Option C
  | .queue => Option Q
  | .route => Route T
  | .send => SendOutcome
  | .arrival => Arrival Q
  | .component => ComponentStep B
  | .task => Task T C

/-- The operations. The pool has a lock of its own: what `nos_buffer_alloc` and `nos_buffer_release`
do under it is one step. The list of free blocks has none: each of its atomic operations is one
step. The last two operations mark the call and the return of a send. -/
inductive NodeOp (B T C Q : Type) where
  | alloc
  | loadFreeListHead
  | loadNextFree (blk : B)
  | casPop (blk : B) (next : Option B)
  | storeCount (blk : B)
  | retain (buf : B)
  | decRef (owner : RefOwner T C) (buf : B)
  | giveBack (buf : B)
  | storeNextFree (blk : B) (head : Option B)
  | casPush (blk : B) (head : Option B)
  | lock (r : RingId T C)
  | unlock (r : RingId T C)
  | isEmpty (r : RingId T C)
  | isFull (r : RingId T C)
  | first (r : RingId T C)
  | push (r : RingId T C) (buf : B)
  | advance (r : RingId T C)
  | shmEnqueue (q : Q) (buf : B)
  | shmDequeue (q : Q)
  | ask (question : Question)
  | callSend (buf : B)
  | returnSend (buf : B) (st : NosStatus)

def NodeOp.Resp {B T C Q : Type} : NodeOp B T C Q → Type
  | alloc => Option B
  | loadFreeListHead => Option B
  | loadNextFree _ => Option B
  | casPop _ _ => Bool
  | decRef _ _ => Bool
  | casPush _ _ => Bool
  | isEmpty _ => Bool
  | isFull _ => Bool
  | first _ => B
  | shmEnqueue _ _ => Bool
  | shmDequeue _ => Option B
  | ask question => Answer B T C Q question
  | _ => Unit

/-- The counts, the free stacks of the pool, the list of the free blocks of shared memory with its
links, the rings with their locks and the shared-memory queues. The history has the heads that have
been released before they left their ring, and how often a buffer has been taken from its pool and
given back. -/
structure NodeState (A B T C Q : Type) where
  refCnt : B → ℤ
  freeStack : B → ℕ
  freeListHead : Option B
  nextFree : B → Option B
  ring : (r : RingId T C) → RingBuffer B r.size
  lockOwner : RingId T C → Option A
  shmQueue : Q → List B
  released : RingId T C → Bool
  allocs : B → ℕ
  frees : B → ℕ

/-- What a thread knows of the ring that it has locked. -/
structure RingView (B T C : Type) where
  ring : RingId T C
  contents : List B
  released : Bool

/-- A send that has returned, with the change that its own operations have made to the count. -/
structure SendRecord (B : Type) where
  buf : B
  status : NosStatus
  change : ℤ

/-- A buffer with count zero that is in no pool: a thread has released it for the last time, or has
popped it. The link is the one that it has written into the block, if it has. -/
structure InHand (B : Type) where
  buf : B
  link : Option (Option B)

/-- What a thread holds: references, a locked ring and a buffer between its pool and its users. The
history sums up what it has done to each count. -/
structure Holdings (B T C : Type) where
  held : Multiset B
  view : Option (RingView B T C)
  inHand : Option (InHand B)
  net : B → ℤ
  mark : ℤ
  sends : List (SendRecord B)

/-- The blocks of the shared memory, in the order in which `init_shm_pool` links them. -/
structure ShmRegion (B : Type) where
  blocks : List B
  nodup : blocks.Nodup

/-- `flags` of a buffer is 1. -/
def ShmRegion.isShm {B : Type} [DecidableEq B] (shm : ShmRegion B) (b : B) : Bool :=
  decide (b ∈ shm.blocks)

/-- What the environment decides in a step: the buffer that the pool has for an allocation, whether
a weak compare-exchange fails without a reason, and the answers. -/
structure NodeEnv (B T C Q : Type) where
  chunk : Option B
  spurious : Bool
  answer : (question : Question) → Answer B T C Q question

namespace Holdings

variable {B T C : Type}

def empty : Holdings B T C := ⟨0, none, none, fun _ => 0, 0, []⟩

variable [DecidableEq B] (g : Holdings B T C)

def gain (b : B) : Holdings B T C :=
  { g with held := b ::ₘ g.held, net := Function.update g.net b (g.net b + 1) }

/-- A reference less, by a release that may have been the last. -/
def drop (owner : RefOwner T C) (b : B) (last : Bool) : Holdings B T C :=
  { g with
    held := match owner with
      | .code => g.held.erase b
      | .head _ => g.held
    view := match owner with
      | .code => g.view
      | .head _ => g.view.map fun v => { v with released := true }
    inHand := if last then some ⟨b, none⟩ else g.inHand
    net := Function.update g.net b (g.net b - 1) }

def put (b : B) : Holdings B T C := { g with held := g.held.erase b }

def take (b : B) : Holdings B T C := { g with held := b ::ₘ g.held }

def setView (view : Option (RingView B T C)) : Holdings B T C := { g with view := view }

end Holdings

def RingView.push {B T C : Type} (v : RingView B T C) (b : B) : RingView B T C :=
  { v with contents := v.contents ++ [b] }

def RingView.advance {B T C : Type} (v : RingView B T C) : RingView B T C :=
  { v with contents := v.contents.tail, released := false }

namespace NodeState

variable {A B T C Q : Type}

def init [DecidableEq B] (shm : ShmRegion B) (null : B) : NodeState A B T C Q where
  refCnt _ := 0
  freeStack b := if shm.isShm b then 0 else 1
  freeListHead := shm.blocks.head?
  nextFree := IndexChain.behind shm.blocks
  ring r := .init null r.size_pos
  lockOwner _ := none
  shmQueue _ := []
  released _ := false
  allocs _ := 0
  frees _ := 0

variable [DecidableEq B] [DecidableEq T] [DecidableEq C] [DecidableEq Q]
  (s : NodeState A B T C Q)

/-- `nos_buffer_alloc` of a buffer that is free. -/
def alloc (b : B) : NodeState A B T C Q :=
  { s with
    refCnt := Function.update s.refCnt b 1
    freeStack := Function.update s.freeStack b (s.freeStack b - 1)
    allocs := Function.update s.allocs b (s.allocs b + 1) }

/-- The compare-exchange of `nos_shm_buffer_alloc`. -/
def pop (b : B) (next : Option B) : NodeState A B T C Q :=
  { s with
    freeListHead := next
    allocs := Function.update s.allocs b (s.allocs b + 1) }

def storeCount (b : B) : NodeState A B T C Q :=
  { s with refCnt := Function.update s.refCnt b 1 }

def addRef (b : B) (n : ℤ) : NodeState A B T C Q :=
  { s with refCnt := Function.update s.refCnt b (s.refCnt b + n) }

/-- The part of `nos_buffer_release` after the count has come to zero. -/
def giveBack (b : B) : NodeState A B T C Q :=
  { s with
    freeStack := Function.update s.freeStack b (s.freeStack b + 1)
    frees := Function.update s.frees b (s.frees b + 1) }

def setNextFree (b : B) (next : Option B) : NodeState A B T C Q :=
  { s with nextFree := Function.update s.nextFree b next }

/-- The compare-exchange of `nos_shm_buffer_release`. -/
def pushFree (b : B) : NodeState A B T C Q :=
  { s with
    freeListHead := some b
    frees := Function.update s.frees b (s.frees b + 1) }

def setLock (r : RingId T C) (owner : Option A) : NodeState A B T C Q :=
  { s with lockOwner := Function.update s.lockOwner r owner }

/-- Write a ring, and whether its head has been released. -/
def setRing (r : RingId T C) (ring : RingBuffer B r.size) (released : Bool) :
    NodeState A B T C Q :=
  { s with
    ring := Function.update s.ring r ring
    released := Function.update s.released r released }

def setQueue (q : Q) (queue : List B) : NodeState A B T C Q :=
  { s with shmQueue := Function.update s.shmQueue q queue }

/-- `atomic_fetch_sub` of a release. -/
def decRef (owner : RefOwner T C) (b : B) : NodeState A B T C Q :=
  match owner with
  | .code => s.addRef b (-1)
  | .head r => (s.addRef b (-1)).setRing r (s.ring r) true

end NodeState

section Effect

variable {A B T C Q : Type} [DecidableEq A] [DecidableEq B] [DecidableEq T] [DecidableEq C]
  [DecidableEq Q]

/-- The effects of the operations. A lock is enabled while nobody has it. A reference moves with its
buffer into a slot and out of it, unless the reference of the slot has been released before. -/
def effect : Agents.Effect (NodeOp.Resp (B := B) (T := T) (C := C) (Q := Q)) A (NodeEnv B T C Q)
    (NodeState A B T C Q) (Holdings B T C)
  | _, e, .alloc, s, g =>
    match e.chunk with
    | none => some (none, s, g)
    | some b => if s.freeStack b = 0 then none else some (some b, s.alloc b, g.gain b)
  | _, _, .loadFreeListHead, s, g => some (s.freeListHead, s, g)
  | _, _, .loadNextFree b, s, g => some (s.nextFree b, s, g)
  | _, e, .casPop b next, s, g =>
    if s.freeListHead = some b ∧ e.spurious = false then
      some (true, s.pop b next, { g with inHand := some ⟨b, none⟩ })
    else some (false, s, g)
  | _, _, .storeCount b, s, g => some ((), s.storeCount b, { g.gain b with inHand := none })
  | _, _, .retain b, s, g => some ((), s.addRef b 1, g.gain b)
  | _, _, .decRef owner b, s, g =>
    some (decide (s.refCnt b = 1), s.decRef owner b, g.drop owner b (s.refCnt b = 1))
  | _, _, .giveBack b, s, g => some ((), s.giveBack b, { g with inHand := none })
  | _, _, .storeNextFree b head, s, g =>
    some ((), s.setNextFree b head, { g with inHand := some ⟨b, some head⟩ })
  | _, e, .casPush b head, s, g =>
    if s.freeListHead = head ∧ e.spurious = false then
      some (true, s.pushFree b, { g with inHand := none })
    else some (false, s, g)
  | a, _, .lock r, s, g =>
    if (s.lockOwner r).isSome then none
    else some ((), s.setLock r (some a), g.setView (some ⟨r, (s.ring r).contents, s.released r⟩))
  | _, _, .unlock r, s, g => some ((), s.setLock r none, g.setView none)
  | _, _, .isEmpty r, s, g => some (decide (s.ring r).IsEmpty, s, g)
  | _, _, .isFull r, s, g => some (decide (s.ring r).IsFull, s, g)
  | _, _, .first r, s, g => some ((s.ring r).first, s, g)
  | _, _, .push r b, s, g =>
    some ((), s.setRing r ((s.ring r).push b) (s.released r),
      (g.put b).setView (g.view.map (·.push b)))
  | _, _, .advance r, s, g =>
    some ((), s.setRing r (s.ring r).advance false,
      (if s.released r then g else g.take (s.ring r).first).setView (g.view.map (·.advance)))
  | _, _, .shmEnqueue q b, s, g =>
    if (s.shmQueue q).length + 1 < nosShmQueueSize then
      some (true, s.setQueue q (s.shmQueue q ++ [b]), g.put b)
    else some (false, s, g)
  | _, _, .shmDequeue q, s, g =>
    match s.shmQueue q with
    | [] => some (none, s, g)
    | b :: rest => some (some b, s.setQueue q rest, g.take b)
  | _, e, .ask question, s, g => some (e.answer question, s, g)
  | _, _, .callSend b, s, g => some ((), s, { g with mark := g.net b })
  | _, _, .returnSend b st, s, g =>
    some ((), s, { g with sends := ⟨b, st, g.net b - g.mark⟩ :: g.sends })

omit [DecidableEq B] in
/-- The block that an operation pops, and the link that it has read from it. -/
def NodeOp.popping : NodeOp B T C Q → Option (B × Option B)
  | .casPop b next => some (b, next)
  | _ => none

/-- A pop that finds the head it has read finds the link it has read as well. -/
def LinkFresh (e : NodeEnv B T C Q) (o : NodeOp B T C Q) (s : NodeState A B T C Q) : Prop :=
  ∀ pop ∈ o.popping, s.freeListHead = some pop.1 → e.spurious = false → s.nextFree pop.1 = pop.2

instance (e : NodeEnv B T C Q) (o : NodeOp B T C Q) (s : NodeState A B T C Q) :
    Decidable (LinkFresh e o s) :=
  inferInstanceAs (Decidable (∀ pop ∈ o.popping,
    s.freeListHead = some pop.1 → e.spurious = false → s.nextFree pop.1 = pop.2))

end Effect

end GeminiNOS

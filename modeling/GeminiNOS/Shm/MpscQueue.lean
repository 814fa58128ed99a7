import GeminiNOS.Basic
import GeminiNOS.Foundations.Ring
import GeminiNOS.Foundations.Run

/-! # The shared-memory receive queue

Producers claim a slot by advancing the tail and write their offset into it
afterwards. The consumer waits for the write, clears the slot and advances the
head. Every atomic operation is a step of its own.
-/

namespace GeminiNOS

open Foundations Run

/-- `NOS_SHM_QUEUE_SIZE` -/
def nosShmQueueSize : ℕ := 4096

/-- Where a producer stands in `nos_shm_mpsc_enqueue`: before the atomic operation that the name
says, with what it has read. A claimed slot comes with the number of the claim. -/
inductive EnqueuePc where
  | idle
  | loadTail (offset : ℕ)
  | loadHead (offset tail : ℕ)
  | cas (offset tail : ℕ)
  | store (offset tail ticket : ℕ)
  deriving DecidableEq, Repr

/-- Where the consumer stands in `nos_shm_mpsc_dequeue`. -/
inductive DequeuePc where
  | idle
  | loadHead
  | loadTail (head : ℕ)
  | spin (head : ℕ)
  | clear (head offset : ℕ)
  | advance (head offset : ℕ)
  deriving DecidableEq, Repr

/-- A queue `nos_shm_mpsc_queue_t` with its producers and its consumer, and the history of it: the
offsets in the order in which the tail was advanced for them, the claims whose enqueue has returned
`NOS_OK`, and the offsets that dequeues have returned. -/
structure NosShmMpscQueue (P : Type*) where
  head : ℕ
  tail : ℕ
  offsets : ℕ → ℕ
  producer : P → EnqueuePc
  consumer : DequeuePc
  claims : List ℕ
  accepted : List ℕ
  returned : List ℕ

/-- The start of a call, or the next atomic operation of a call. The weak compare-exchange may fail
without a reason. -/
inductive MpscAction (P : Type*) where
  | enqueue (p : P) (offset : ℕ)
  | dequeue
  | produce (p : P) (spurious : Bool)
  | consume

namespace NosShmMpscQueue

variable {P : Type*} [DecidableEq P]

def empty : NosShmMpscQueue P where
  head := 0
  tail := 0
  offsets _ := 0
  producer _ := .idle
  consumer := .idle
  claims := []
  accepted := []
  returned := []

def setProducer (s : NosShmMpscQueue P) (p : P) (pc : EnqueuePc) : NosShmMpscQueue P :=
  { s with producer := Function.update s.producer p pc }

variable {s : NosShmMpscQueue P} {p : P} {pc : EnqueuePc}

@[simp] theorem head_setProducer : (s.setProducer p pc).head = s.head := rfl
@[simp] theorem tail_setProducer : (s.setProducer p pc).tail = s.tail := rfl
@[simp] theorem claims_setProducer : (s.setProducer p pc).claims = s.claims := rfl
@[simp] theorem returned_setProducer : (s.setProducer p pc).returned = s.returned := rfl

def produce (s : NosShmMpscQueue P) (p : P) (spurious : Bool) : Option (NosShmMpscQueue P) :=
  match s.producer p with
  | .idle => none
  | .loadTail offset => some (s.setProducer p (.loadHead offset s.tail))
  | .loadHead offset tail =>
    if (tail + 1) % nosShmQueueSize = s.head then some (s.setProducer p .idle)
    else some (s.setProducer p (.cas offset tail))
  | .cas offset tail =>
    if s.tail = tail ∧ spurious = false then
      some ({ s with
        tail := (tail + 1) % nosShmQueueSize
        claims := s.claims ++ [offset] }.setProducer p (.store offset tail s.claims.length))
    else some (s.setProducer p (.loadTail offset))
  | .store offset tail ticket =>
    some ({ s with
      offsets := Function.update s.offsets tail offset
      accepted := ticket :: s.accepted }.setProducer p .idle)

def consume (s : NosShmMpscQueue P) : Option (NosShmMpscQueue P) :=
  match s.consumer with
  | .idle => none
  | .loadHead => some { s with consumer := .loadTail s.head }
  | .loadTail head =>
    if head = s.tail then some { s with consumer := .idle }
    else some { s with consumer := .spin head }
  | .spin head =>
    if s.offsets head = 0 then some s
    else some { s with consumer := .clear head (s.offsets head) }
  | .clear head offset =>
    some { s with
      offsets := Function.update s.offsets head 0
      consumer := .advance head offset }
  | .advance head offset =>
    some { s with
      head := (head + 1) % nosShmQueueSize
      returned := s.returned ++ [offset]
      consumer := .idle }

/-- One step. An enqueue of offset zero returns `NOS_ERR` at once. -/
def step (s : NosShmMpscQueue P) : MpscAction P → Option (NosShmMpscQueue P)
  | .enqueue p offset =>
    if s.producer p ≠ .idle then none
    else if offset = 0 then some s
    else some (s.setProducer p (.loadTail offset))
  | .dequeue => if s.consumer ≠ .idle then none else some { s with consumer := .loadHead }
  | .produce p spurious => s.produce p spurious
  | .consume => s.consume

/-- What the queue is to guarantee. Dequeues return the claimed offsets in the order of the claims;
the claims that have not been returned are those between head and tail; an accepted offset that has
not been returned is in its slot, unless the consumer has just taken it out; and no slot that a
producer is about to write is occupied. -/
structure InOrder (s : NosShmMpscQueue P) : Prop where
  returned_prefix : s.returned <+: s.claims
  between_eq : Ring.between nosShmQueueSize s.head s.tail = s.claims.length - s.returned.length
  accepted_nodup : s.accepted.Nodup
  accepted_lt : ∀ k ∈ s.accepted, k < s.claims.length
  stored : ∀ k ∈ s.accepted, s.returned.length ≤ k →
    s.claims[k]? = some (s.offsets ((s.head + (k - s.returned.length)) % nosShmQueueSize)) ∨
      k = s.returned.length ∧ ∃ offset, s.consumer = .advance s.head offset ∧
        s.claims[k]? = some offset
  free_slot : ∀ p offset tail ticket, s.producer p = .store offset tail ticket →
    s.offsets tail = 0

/-- The tail that a successful claim has read is not the last free position before the head. -/
def Room (s : NosShmMpscQueue P) : MpscAction P → Prop
  | .produce p spurious => ∀ offset tail, s.producer p = .cas offset tail → s.tail = tail →
    spurious = false → (tail + 1) % nosShmQueueSize ≠ s.head
  | _ => True

end NosShmMpscQueue

end GeminiNOS

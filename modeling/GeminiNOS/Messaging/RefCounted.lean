import GeminiNOS.Messaging.Balance

/-! # The counts of a node

From a node before any message, whatever its threads do and in whatever order, the
count of a buffer is the number of its references: those that the code holds, and
one for each slot that contains it. The drains release the head of a ring before
they take it off, so that the slot of a head that has been released is not counted
until then. The thread that does so has locked the ring. The list of the free blocks
of shared memory stays a list as long as no pop replaces its head by a stale link.
-/

namespace GeminiNOS

open Foundations

namespace NodeState

variable {A B T C Q : Type} {s : NodeState A B T C Q} {gs : A → Holdings B T C} [DecidableEq B]

variable [Fintype T] [Fintype C] [Fintype Q]

variable [Fintype A]

omit [Fintype A] [Fintype T] [Fintype C] [Fintype Q] in
theorem contents_ring_init (shm : ShmRegion B) (null : B) (r : RingId T C) :
    ((init shm null : NodeState A B T C Q).ring r).contents = [] :=
  RingBuffer.contents_init ..

omit [Fintype T] [Fintype C] [Fintype Q] in
theorem pooled_init (shm : ShmRegion B) (null : B) :
    (init shm null : NodeState A B T C Q).Pooled shm.isShm (fun _ => Holdings.empty)
      shm.blocks where
  isFreeList := IndexChain.isChain_behind shm.nodup
  shm b hb := decide_eq_true hb
  stack b hb := if_pos hb
  free b := by
    have hplaces : (init shm null : NodeState A B T C Q).freePlaces shm.isShm shm.blocks b = 1 := by
      cases hb : shm.isShm b with
      | true =>
        rw [freePlaces_of_shm hb]
        exact List.count_eq_one_of_mem shm.nodup (of_decide_eq_true hb)
      | false =>
        rw [freePlaces_of_not_shm hb]
        exact if_neg (by simp [hb])
    rw [hplaces]
    simp [inHands, total, hand, Holdings.empty, init]
  cycle b := by
    cases hb : shm.isShm b with
    | true =>
      rw [freePlaces_of_shm hb, List.count_eq_one_of_mem shm.nodup (of_decide_eq_true hb)]
      rfl
    | false =>
      rw [freePlaces_of_not_shm hb]
      simp [init, hb]
  linked a b next ha := nomatch ha

theorem inv_init (shm : ShmRegion B) (null : B) :
    (init shm null : NodeState A B T C Q).Inv shm.isShm (fun _ => Holdings.empty) where
  locked := by
    refine ⟨fun a r => ?_, fun a v hv => ?_, fun r _ => rfl⟩
    · refine iff_of_false (fun h => nomatch h) ?_
      rintro ⟨v, hv, -⟩
      cases hv
    · cases hv
  counted := by
    intro b
    simp [holders, liveSlots, total, live, Holdings.empty, contents_ring_init]
    simp [init]
  pooled := ⟨shm.blocks, pooled_init shm null⟩
  settled := fun a send hsend => nomatch hsend

end NodeState

abbrev Node (A B T C Q : Type) :=
  Agents (NodeOp.Resp (B := B) (T := T) (C := C) (Q := Q)) A (NodeState A B T C Q) (Holdings B T C)

namespace Node

variable {A B T C Q : Type} [DecidableEq A] [DecidableEq B] [DecidableEq T] [DecidableEq C]
  [DecidableEq Q]

def init (shm : ShmRegion B) (null : B) : Node A B T C Q where
  shared := .init shm null
  prog _ := NodeM.threadMain shm.isShm
  ghost _ := .empty

def step : Node A B T C Q → A × NodeEnv B T C Q → Option (Node A B T C Q) := Agents.step effect

/-- The thread does not replace the head of the list of free blocks by a stale link. -/
abbrev LinkFresh : Node A B T C Q → A × NodeEnv B T C Q → Prop := Agents.Next GeminiNOS.LinkFresh

variable [Fintype A] [Fintype T] [Fintype C] [Fintype Q]

end Node

end GeminiNOS

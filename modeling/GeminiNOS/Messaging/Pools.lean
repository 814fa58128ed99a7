import GeminiNOS.Foundations.Total
import GeminiNOS.Messaging.Node

/-! # Pools of buffers

A buffer whose count is zero is in its pool, or in the hands of one thread that has
released it for the last time or has just popped it. The buffers of the pool are on
free stacks, and the blocks of shared memory are linked into a list. A thread that
writes the link of a block has the block in hand, so that a push finds the link that
it has written; a pop needs that the link which it has read is still the one of the
head.
-/

namespace GeminiNOS

open Foundations

namespace NodeState

variable {A B T C Q : Type} {s s' : NodeState A B T C Q} {gs : A → Holdings B T C} {a : A}
  {g : Holdings B T C} {b b' : B}

variable [DecidableEq B]

def hand (g : Holdings B T C) (b : B) : ℕ := if g.inHand.map InHand.buf = some b then 1 else 0

@[simp] theorem hand_none (hg : g.inHand = none) : hand g b = 0 := by simp [hand, hg]

theorem hand_some {blk : InHand B} (hg : g.inHand = some blk) :
    hand g b = if b = blk.buf then 1 else 0 := by
  simp [hand, hg, eq_comm]

/-- These are the blocks of the list of free blocks. -/
def IsFreeList (s : NodeState A B T C Q) (l : List B) : Prop :=
  IndexChain.IsChain (fun blk => blk.bind s.nextFree) none s.freeListHead (l.map some)

/-- The part of the state that the pools are made of. -/
def pools (s : NodeState A B T C Q) :
    (B → ℕ) × Option B × (B → Option B) × (B → ℕ) × (B → ℕ) :=
  (s.freeStack, s.freeListHead, s.nextFree, s.allocs, s.frees)

variable (isShm : B → Bool)

def freePlaces (s : NodeState A B T C Q) (l : List B) (b : B) : ℕ :=
  if isShm b then l.count b else s.freeStack b

variable {isShm} {l l' : List B} {link : Option (Option B)} {next : Option B}

theorem freePlaces_of_shm (hb : isShm b = true) : s.freePlaces isShm l b = l.count b := if_pos hb

theorem freePlaces_of_not_shm (hb : isShm b = false) :
    s.freePlaces isShm l b = s.freeStack b :=
  if_neg (by simp [hb])

variable [Fintype A]

def inHands (gs : A → Holdings B T C) (b : B) : ℕ := total (fun _ g => hand g b) gs

/-- A buffer is in its pool, or in the hands of one thread, exactly if its count is zero. It is
given back once for every time that it is taken. -/
structure Pooled (isShm : B → Bool) (s : NodeState A B T C Q) (gs : A → Holdings B T C)
    (l : List B) : Prop where
  isFreeList : s.IsFreeList l
  shm : ∀ b ∈ l, isShm b = true
  stack : ∀ b, isShm b = true → s.freeStack b = 0
  free : ∀ b, s.freePlaces isShm l b + inHands gs b = if s.refCnt b = 0 then 1 else 0
  cycle : ∀ b, s.allocs b + s.freePlaces isShm l b = s.frees b + 1
  linked : ∀ a b next, (gs a).inHand = some ⟨b, some next⟩ → s.nextFree b = next

theorem Pooled.refCnt_eq_zero (h : s.Pooled isShm gs l) (hfree : s.freePlaces isShm l b ≠ 0) :
    s.refCnt b = 0 := by
  by_contra hne
  have hb := h.free b
  rw [if_neg hne] at hb
  omega

theorem Pooled.of_inHand (h : s.Pooled isShm gs l) (ha : (gs a).inHand = some ⟨b, link⟩) :
    s.refCnt b = 0 ∧ s.freePlaces isShm l b = 0 ∧ inHands gs b = 1 := by
  have hb := h.free b
  have hhand : hand (gs a) b ≤ inHands gs b := le_total (fun _ g => hand g b) gs a
  rw [hand_some ha, if_pos rfl] at hhand
  split at hb
  · exact ⟨‹_›, by omega, by omega⟩
  · omega

theorem Pooled.notMem_of_inHand (h : s.Pooled isShm gs l) (ha : (gs a).inHand = some ⟨b, link⟩) :
    b ∉ l := by
  intro hb
  have hfree := (h.of_inHand ha).2.1
  rw [freePlaces_of_shm (h.shm b hb)] at hfree
  exact absurd hb (List.count_eq_zero.mp hfree)

variable [DecidableEq A]

theorem inHands_update (gs : A → Holdings B T C) (a : A) (g : Holdings B T C) (b : B) :
    inHands (Function.update gs a g) b + hand (gs a) b = inHands gs b + hand g b :=
  total_update ..

theorem Pooled.inHand_unique (h : s.Pooled isShm gs l) (ha : (gs a).inHand = some ⟨b, link⟩)
    {x : A} (hx : x ≠ a) {link' : Option (Option B)} :
    (gs x).inHand ≠ some ⟨b', link'⟩ ∨ b' ≠ b := by
  by_contra hsame
  obtain ⟨hx', hb⟩ := not_or.mp hsame
  obtain rfl := not_not.mp hb
  have hx' := not_not.mp hx'
  have hone := (h.of_inHand ha).2.2
  have hrest := inHands_update gs a Holdings.empty b'
  have hother : hand (Function.update gs a Holdings.empty x) b' ≤ _ :=
    le_total (fun _ g => hand g b') (Function.update gs a Holdings.empty) x
  rw [Function.update_of_ne hx, hand_some hx', if_pos rfl] at hother
  rw [hand_some ha, if_pos rfl, hand_none rfl, hone] at hrest
  change 1 ≤ inHands (Function.update gs a Holdings.empty) b' at hother
  omega

/-- A step of a thread: each buffer moves between its pool, the hand of the thread and its users. -/
theorem Pooled.move (h : s.Pooled isShm gs l) (hlist : s'.IsFreeList l')
    (hshm : ∀ b ∈ l', isShm b = true) (hstack : ∀ b, isShm b = true → s'.freeStack b = 0)
    (hfree : ∀ b, s'.freePlaces isShm l' b + hand g b + (if s.refCnt b = 0 then 1 else 0) =
      s.freePlaces isShm l b + hand (gs a) b + if s'.refCnt b = 0 then 1 else 0)
    (hcycle : ∀ b, s'.allocs b + s'.freePlaces isShm l' b + s.frees b =
      s.allocs b + s.freePlaces isShm l b + s'.frees b)
    (hlink : ∀ b next, g.inHand = some ⟨b, some next⟩ → s'.nextFree b = next)
    (hnext : ∀ x ≠ a, ∀ b link, (gs x).inHand = some ⟨b, link⟩ → s'.nextFree b = s.nextFree b) :
    s'.Pooled isShm (Function.update gs a g) l' := by
  refine ⟨hlist, hshm, hstack, fun b => ?_, fun b => ?_, fun x b next hx => ?_⟩
  · have hold := h.free b
    have hmove := hfree b
    have htotal := inHands_update gs a g b
    omega
  · have hold := h.cycle b
    have hmove := hcycle b
    omega
  · rw [Function.update_apply] at hx
    split at hx
    · exact hlink b next hx
    · rw [hnext x ‹_› b _ hx]
      exact h.linked x b next hx

theorem Pooled.keep (h : s.Pooled isShm gs l) (hpools : s'.pools = s.pools)
    (hfree : ∀ b, hand g b + (if s.refCnt b = 0 then 1 else 0) =
      hand (gs a) b + if s'.refCnt b = 0 then 1 else 0)
    (hlink : ∀ b next, g.inHand = some ⟨b, some next⟩ → s.nextFree b = next) :
    s'.Pooled isShm (Function.update gs a g) l := by
  simp only [pools, Prod.mk.injEq] at hpools
  obtain ⟨hstack, hhead, hnext, hallocs, hfrees⟩ := hpools
  have hplaces : ∀ b, s'.freePlaces isShm l b = s.freePlaces isShm l b := fun b => by
    rw [freePlaces, hstack, freePlaces]
  refine h.move ?_ h.shm (fun b hb => ?_) (fun b => ?_) (fun b => ?_) (fun b next hg => ?_)
    fun x _ b link _ => by rw [hnext]
  · rw [IsFreeList, hhead, hnext]
    exact h.isFreeList
  · rw [hstack]
    exact h.stack b hb
  · have hb := hfree b
    rw [hplaces]
    omega
  · rw [hplaces, hallocs, hfrees]
  · rw [hnext]
    exact hlink b next hg

/-- Steps that neither bring a count to zero nor move it from there. -/
theorem Pooled.update (h : s.Pooled isShm gs l) (hpools : s'.pools = s.pools)
    (hzero : ∀ b, s'.refCnt b = 0 ↔ s.refCnt b = 0) (hinHand : g.inHand = (gs a).inHand) :
    s'.Pooled isShm (Function.update gs a g) l := by
  have hhand : ∀ b, hand g b = hand (gs a) b := fun b => by rw [hand, hinHand, hand]
  refine h.keep hpools (fun b => ?_) fun b next hg => ?_
  · simp only [hhand, hzero]
  · exact h.linked a b next (hinHand ▸ hg)

theorem Pooled.decRef (h : s.Pooled isShm gs l) (hpos : 0 < s.refCnt b)
    (hidle : (gs a).inHand = none) (hpools : s'.pools = s.pools)
    (hrefCnt : s'.refCnt = Function.update s.refCnt b (s.refCnt b + -1))
    (hinHand : g.inHand = if s.refCnt b = 1 then some ⟨b, none⟩ else none) :
    s'.Pooled isShm (Function.update gs a g) l := by
  refine h.keep hpools (fun b' => ?_) fun b' next hg => ?_
  · rw [hrefCnt, Function.update_apply, hand_none hidle]
    by_cases hlast : s.refCnt b = 1
    · rw [if_pos hlast] at hinHand
      rw [hand_some hinHand]
      by_cases hb : b' = b
      · subst b'
        simp [hlast]
      · simp [hb]
    · rw [if_neg hlast] at hinHand
      rw [hand_none hinHand]
      by_cases hb : b' = b
      · subst b'
        rw [if_pos rfl, if_neg (by omega), if_neg (by omega)]
      · rw [if_neg hb]
  · rw [hinHand] at hg
    split at hg <;> cases hg

/-- Nothing changes about the buffers but one. -/
structure Others (isShm : B → Bool) (s s' : NodeState A B T C Q) (l l' : List B) (b : B) :
    Prop where
  places : ∀ b' ≠ b, s'.freePlaces isShm l' b' = s.freePlaces isShm l b'
  refCnt : ∀ b' ≠ b, s'.refCnt b' = s.refCnt b'
  allocs : ∀ b' ≠ b, s'.allocs b' = s.allocs b'
  frees : ∀ b' ≠ b, s'.frees b' = s.frees b'

/-- One buffer moves between its pool, the hand of the thread and its users. -/
theorem Pooled.moveOne (h : s.Pooled isShm gs l) (hothers : Others isShm s s' l l' b)
    (hlist : s'.IsFreeList l') (hshm : ∀ b ∈ l', isShm b = true)
    (hstack : ∀ b, isShm b = true → s'.freeStack b = 0)
    (hhand : ∀ b' ≠ b, hand g b' = hand (gs a) b')
    (hfree : s'.freePlaces isShm l' b + hand g b + (if s.refCnt b = 0 then 1 else 0) =
      s.freePlaces isShm l b + hand (gs a) b + if s'.refCnt b = 0 then 1 else 0)
    (hcycle : s'.allocs b + s'.freePlaces isShm l' b + s.frees b =
      s.allocs b + s.freePlaces isShm l b + s'.frees b)
    (hlink : ∀ b next, g.inHand = some ⟨b, some next⟩ → s'.nextFree b = next)
    (hnext : s'.nextFree = s.nextFree) : s'.Pooled isShm (Function.update gs a g) l' := by
  refine h.move hlist hshm hstack (fun b' => ?_) (fun b' => ?_) hlink
    fun _ _ _ _ _ => by rw [hnext]
  · by_cases hb : b' = b
    · rw [hb]
      exact hfree
    · rw [hothers.places b' hb, hhand b' hb, hothers.refCnt b' hb]
  · by_cases hb : b' = b
    · rw [hb]
      exact hcycle
    · rw [hothers.places b' hb, hothers.allocs b' hb, hothers.frees b' hb]

omit [DecidableEq A] in
theorem Pooled.stack_update (h : s.Pooled isShm gs l) (hb : isShm b = false) (n : ℕ)
    (hb' : isShm b' = true) : Function.update s.freeStack b n b' = 0 := by
  rw [Function.update_of_ne]
  · exact h.stack b' hb'
  · rintro rfl
    simp [hb] at hb'

theorem Pooled.alloc (h : s.Pooled isShm gs l) (hfree : s.freeStack b ≠ 0) :
    (s.alloc b).Pooled isShm (Function.update gs a ((gs a).gain b)) l := by
  have hb : isShm b = false := by
    by_contra hshm
    exact hfree (h.stack b (by simpa using hshm))
  have hplaces := freePlaces_of_not_shm (s := s) (l := l) hb
  have hzero := h.refCnt_eq_zero (b := b) (by rwa [hplaces])
  have hone := h.free b
  rw [hplaces, if_pos hzero] at hone
  have hself : (s.alloc b).freePlaces isShm l b = s.freeStack b - 1 := by
    rw [freePlaces_of_not_shm hb]
    exact Function.update_self ..
  have hothers : Others isShm s (s.alloc b) l l b :=
    { places := fun b' hb' => by
        simp only [freePlaces, NodeState.alloc, Function.update_of_ne hb']
      refCnt := fun b' hb' => Function.update_of_ne hb' ..
      allocs := fun b' hb' => Function.update_of_ne hb' ..
      frees := fun _ _ => rfl }
  refine h.moveOne hothers h.isFreeList h.shm (fun _ => h.stack_update hb _) (fun _ _ => rfl)
    ?_ ?_ (fun b' next hg => h.linked a b' next hg) rfl
  · have hhand : hand ((gs a).gain b) b = hand (gs a) b := rfl
    rw [hhand, hself, hplaces, if_pos hzero]
    simp [NodeState.alloc]
    omega
  · rw [hself, hplaces]
    simp [NodeState.alloc]
    omega

/-- The buffer whose count a thread has taken to zero goes back to its pool. -/
theorem Pooled.giveBack (h : s.Pooled isShm gs l) (hb : isShm b = false)
    (ha : (gs a).inHand = some ⟨b, link⟩) (hg : g.inHand = none) :
    (s.giveBack b).Pooled isShm (Function.update gs a g) l := by
  have hself : (s.giveBack b).freePlaces isShm l b = s.freePlaces isShm l b + 1 := by
    rw [freePlaces_of_not_shm hb, freePlaces_of_not_shm hb]
    exact Function.update_self ..
  have hothers : Others isShm s (s.giveBack b) l l b :=
    { places := fun b' hb' => by
        simp only [freePlaces, NodeState.giveBack, Function.update_of_ne hb']
      refCnt := fun _ _ => rfl
      allocs := fun _ _ => rfl
      frees := fun b' hb' => Function.update_of_ne hb' .. }
  refine h.moveOne hothers h.isFreeList h.shm (fun _ => h.stack_update hb _) (fun b' hb' => ?_)
    ?_ ?_ (fun b' next hg' => by cases hg.symm.trans hg') rfl
  · rw [hand_none hg, hand_some ha, if_neg hb']
  · rw [hself, hand_none hg, hand_some ha, if_pos rfl]
    rfl
  · show s.allocs b + _ + s.frees b = _ + Function.update s.frees b _ b
    rw [hself, Function.update_self]
    omega

/-- The first block of the free list is taken off it, if the link that has been read is its own. -/
theorem Pooled.pop (h : s.Pooled isShm gs l) (hidle : (gs a).inHand = none)
    (hhead : s.freeListHead = some b) (hnext : s.nextFree b = next)
    (hg : g.inHand = some ⟨b, none⟩) :
    ∃ l', (s.pop b next).Pooled isShm (Function.update gs a g) l' := by
  have hchain := h.isFreeList
  cases l with
  | nil => exact absurd (hhead.symm.trans hchain) (by simp)
  | cons first rest =>
    obtain ⟨hfirst, -, hrest⟩ := hchain
    obtain rfl : b = first := Option.some.inj (hhead.symm.trans hfirst)
    have hb := h.shm b List.mem_cons_self
    have hself : (s.pop b next).freePlaces isShm rest b + 1 =
        s.freePlaces isShm (b :: rest) b := by
      rw [freePlaces_of_shm hb, freePlaces_of_shm hb, List.count_cons_self]
    have hothers : Others isShm s (s.pop b next) (b :: rest) rest b :=
      { places := fun b' hb' => by
          simp only [freePlaces, List.count_cons_of_ne hb'.symm]
          rfl
        refCnt := fun _ _ => rfl
        allocs := fun b' hb' => Function.update_of_ne hb' ..
        frees := fun _ _ => rfl }
    refine ⟨rest, h.moveOne hothers (hnext ▸ hrest)
      (fun b' hb' => h.shm b' (List.mem_cons_of_mem b hb')) h.stack (fun b' hb' => ?_) ?_ ?_
      (fun b' next' hg' => ?_) rfl⟩
    · rw [hand_some hg, if_neg hb', hand_none hidle]
    · rw [hand_some hg, hand_none hidle, if_pos rfl, hself]
      rfl
    · show Function.update s.allocs b _ b + _ + s.frees b = _ + s.frees b
      rw [Function.update_self, ← hself]
      omega
    · cases hg.symm.trans hg'

theorem Pooled.storeCount (h : s.Pooled isShm gs l) (ha : (gs a).inHand = some ⟨b, link⟩)
    (hg : g.inHand = none) :
    (s.storeCount b).Pooled isShm (Function.update gs a g) l := by
  obtain ⟨hzero, hplaces, -⟩ := h.of_inHand ha
  have hself : (s.storeCount b).refCnt b = 1 := Function.update_self ..
  have hothers : Others isShm s (s.storeCount b) l l b :=
    { places := fun _ _ => rfl
      refCnt := fun b' hb' => Function.update_of_ne hb' ..
      allocs := fun _ _ => rfl
      frees := fun _ _ => rfl }
  refine h.moveOne hothers h.isFreeList h.shm h.stack (fun b' hb' => ?_) ?_ rfl
    (fun b' next hg' => by cases hg.symm.trans hg') rfl
  · rw [hand_none hg, hand_some ha, if_neg hb']
  · rw [hand_none hg, hand_some ha, if_pos rfl, if_pos hzero, hself, if_neg one_ne_zero]
    rfl

theorem Pooled.setNextFree (h : s.Pooled isShm gs l) (ha : (gs a).inHand = some ⟨b, link⟩)
    (hg : g.inHand = some ⟨b, some next⟩) :
    (s.setNextFree b next).Pooled isShm (Function.update gs a g) l := by
  refine h.move ?_ h.shm h.stack (fun b' => ?_) (fun _ => rfl) (fun b' next' hg' => ?_)
    fun x hx b' link' hx' => ?_
  · refine h.isFreeList.congr fun blk hblk => ?_
    obtain ⟨b', hb', rfl⟩ := List.mem_map.mp hblk
    exact Function.update_of_ne (ne_of_mem_of_not_mem hb' (h.notMem_of_inHand ha)) _ _
  · rw [hand_some hg, hand_some ha]
    rfl
  · cases hg.symm.trans hg'
    exact Function.update_self ..
  · refine Function.update_of_ne ?_ _ _
    exact (h.inHand_unique ha hx).resolve_left (not_not.mpr hx')

theorem Pooled.pushFree (h : s.Pooled isShm gs l) (hb : isShm b = true)
    (ha : (gs a).inHand = some ⟨b, some next⟩) (hhead : s.freeListHead = next)
    (hg : g.inHand = none) :
    (s.pushFree b).Pooled isShm (Function.update gs a g) (b :: l) := by
  have hself : (s.pushFree b).freePlaces isShm (b :: l) b = s.freePlaces isShm l b + 1 := by
    rw [freePlaces_of_shm hb, freePlaces_of_shm hb, List.count_cons_self]
  have hothers : Others isShm s (s.pushFree b) l (b :: l) b :=
    { places := fun b' hb' => by
        simp only [freePlaces, List.count_cons_of_ne hb'.symm]
        rfl
      refCnt := fun _ _ => rfl
      allocs := fun _ _ => rfl
      frees := fun b' hb' => Function.update_of_ne hb' .. }
  refine h.moveOne hothers ?_ ?_ h.stack (fun b' hb' => ?_) ?_ ?_
    (fun b' next hg' => by cases hg.symm.trans hg') rfl
  · refine IndexChain.IsChain.push h.isFreeList (Option.some_ne_none b) ?_
    exact (h.linked a b next ha).trans hhead.symm
  · rintro b' hb'
    rcases List.mem_cons.mp hb' with rfl | hb'
    · exact hb
    · exact h.shm b' hb'
  · rw [hand_none hg, hand_some ha, if_neg hb']
  · rw [hself, hand_none hg, hand_some ha, if_pos rfl]
    rfl
  · show s.allocs b + _ + s.frees b = _ + Function.update s.frees b _ b
    rw [hself, Function.update_self]
    omega

end NodeState

end GeminiNOS

import GeminiNOS.Messaging.Pools

/-! # Counts, holders and slots

The count of a buffer is the number of references that the code of the threads
holds, and of the slots that contain it. The head of a ring that a drain has
released, and not taken off yet, is no longer counted. A buffer whose count is zero
is in its pool, or in the hands of one thread. The rules say what a thread has to
hold for an operation, and the operations keep the count under these rules, provided
that no pop finds a stale link.
-/

namespace GeminiNOS

open Foundations

section Rules

variable {B T C Q : Type} [DecidableEq B] (isShm : B → Bool)

end Rules

namespace NodeState

variable {A B T C Q : Type} {s s' : NodeState A B T C Q} {gs : A → Holdings B T C} {a : A}
  {g : Holdings B T C} {b b' : B} {r : RingId T C} {v : RingView B T C} {q : Q} {queue : List B}
  {released : Bool}

/-- The thread that has locked a ring knows it. -/
structure Locked (s : NodeState A B T C Q) (gs : A → Holdings B T C) : Prop where
  owner : ∀ a r, s.lockOwner r = some a ↔ ∃ v, (gs a).view = some v ∧ v.ring = r
  view : ∀ a v, (gs a).view = some v →
    v.contents = (s.ring v.ring).contents ∧ v.released = s.released v.ring
  unlocked : ∀ r, s.lockOwner r = none → s.released r = false

theorem Locked.view_eq (h : s.Locked gs) {contents : List B}
    (hview : (gs a).view = some ⟨r, contents, released⟩) :
    (s.ring r).contents = contents ∧ s.released r = released :=
  ⟨(h.view a _ hview).1.symm, (h.view a _ hview).2.symm⟩

theorem Locked.first_eq (h : s.Locked gs) {rest : List B}
    (hview : (gs a).view = some ⟨r, b :: rest, released⟩) :
    (s.ring r).first = b ∧ (s.ring r).advance.contents = rest := by
  obtain ⟨hcontents, -⟩ := h.view_eq hview
  have hempty : ¬ (s.ring r).IsEmpty := fun he => by
    rw [RingBuffer.contents_of_isEmpty _ he] at hcontents
    cases hcontents
  have hadvance := RingBuffer.contents_advance (s.ring r) hempty
  rw [hcontents] at hadvance
  obtain ⟨hfirst, hrest⟩ := List.cons.inj hadvance
  exact ⟨hfirst.symm, hrest.symm⟩

section Locks

variable [DecidableEq A]

theorem Locked.update (h : s.Locked gs) (howner : s'.lockOwner = s.lockOwner)
    (hring : s'.ring = s.ring) (hreleased : s'.released = s.released)
    (hview : g.view = (gs a).view) : s'.Locked (Function.update gs a g) := by
  have hsame : ∀ x, (Function.update gs a g x).view = (gs x).view := by
    intro x
    rw [Function.update_apply]
    split
    · rw [hview, ‹x = a›]
    · rfl
  refine ⟨fun x r => ?_, fun x v hv => ?_, fun r hr => ?_⟩
  · rw [hsame, howner]
    exact h.owner x r
  · rw [hsame] at hv
    rw [hring, hreleased]
    exact h.view x v hv
  · rw [hreleased]
    exact h.unlocked r (howner ▸ hr)

variable [DecidableEq T] [DecidableEq C]

theorem Locked.setRing (h : s.Locked gs) {ring : RingBuffer B v.ring.size}
    (hv : (gs a).view = some v) (hg : g.view = some ⟨v.ring, ring.contents, released⟩) :
    (s.setRing v.ring ring released).Locked (Function.update gs a g) := by
  have howner : s.lockOwner v.ring = some a := (h.owner a v.ring).mpr ⟨v, hv, rfl⟩
  refine ⟨fun x r => ?_, fun x w hw => ?_, fun r hr => ?_⟩
  · rw [Function.update_apply]
    split
    · subst x
      show s.lockOwner r = some a ↔ _
      rw [h.owner a r, hv, hg]
      simp
    · exact h.owner x r
  · rw [Function.update_apply] at hw
    split at hw
    · rw [hg] at hw
      obtain rfl := Option.some.inj hw
      exact ⟨by simp [NodeState.setRing], by simp [NodeState.setRing]⟩
    · have hother : w.ring ≠ v.ring := by
        intro he
        have hx : s.lockOwner v.ring = some x := (h.owner x v.ring).mpr ⟨w, hw, he⟩
        exact ‹x ≠ a› (Option.some.inj (hx.symm.trans howner))
      obtain ⟨hcontents, hreleased⟩ := h.view x w hw
      simp only [NodeState.setRing, Function.update_of_ne hother]
      exact ⟨hcontents, hreleased⟩
  · have hne : r ≠ v.ring := by
      rintro rfl
      exact absurd (howner.symm.trans hr) (by simp)
    show Function.update s.released v.ring released r = false
    rw [Function.update_of_ne hne]
    exact h.unlocked r hr

theorem Locked.setLock (h : s.Locked gs) {owner : Option A}
    (hothers : ∀ x ≠ a, s.lockOwner r ≠ some x ∧ owner ≠ some x)
    (hg : ∀ r', (if r' = r then owner else s.lockOwner r') = some a ↔
      ∃ v, g.view = some v ∧ v.ring = r')
    (hview : ∀ v, g.view = some v →
      v.contents = (s.ring v.ring).contents ∧ v.released = s.released v.ring)
    (hreleased : owner = none → s.released r = false) :
    (s.setLock r owner).Locked (Function.update gs a g) := by
  refine ⟨fun x r' => ?_, fun x w hw => ?_, fun r' hr' => ?_⟩
  · show Function.update s.lockOwner r owner r' = some x ↔ _
    simp only [Function.update_apply]
    by_cases hx : x = a
    · subst x
      rw [if_pos rfl]
      exact hg r'
    · rw [if_neg hx, ← h.owner x r']
      split
      · subst r'
        exact iff_of_false (hothers x hx).2 (hothers x hx).1
      · exact Iff.rfl
  · rw [Function.update_apply] at hw
    split at hw
    · exact hview w hw
    · exact h.view x w hw
  · change Function.update s.lockOwner r owner r' = none at hr'
    rw [Function.update_apply] at hr'
    split at hr'
    · subst r'
      exact hreleased hr'
    · exact h.unlocked r' hr'

theorem Locked.lock (h : s.Locked gs) (hfree : s.lockOwner r = none) (hview : (gs a).view = none)
    (hg : g.view = some ⟨r, (s.ring r).contents, s.released r⟩) :
    (s.setLock r (some a)).Locked (Function.update gs a g) := by
  refine h.setLock (fun x hx => ?_) (fun r' => ?_) (fun v hv => ?_) (fun ho => ?_)
  · rw [hfree]
    simp [Ne.symm hx]
  · rw [hg]
    split
    · simp [‹r' = r›]
    · rw [h.owner a r', hview]
      simp [Ne.symm ‹r' ≠ r›]
  · rw [hg] at hv
    obtain rfl := Option.some.inj hv
    exact ⟨rfl, rfl⟩
  · cases ho

theorem Locked.unlock (h : s.Locked gs) (hview : (gs a).view = some v)
    (hreleased : v.released = false) (hg : g.view = none) :
    (s.setLock v.ring none).Locked (Function.update gs a g) := by
  have howner : s.lockOwner v.ring = some a := (h.owner a v.ring).mpr ⟨v, hview, rfl⟩
  refine h.setLock (fun x hx => ?_) (fun r' => ?_) (fun w hw => ?_) (fun _ => ?_)
  · rw [howner]
    simp [Ne.symm hx]
  · rw [hg]
    split
    · simp
    · rw [h.owner a r', hview]
      simp [Ne.symm ‹r' ≠ v.ring›]
  · rw [hg] at hw
    cases hw
  · rw [← (h.view a v hview).2, hreleased]

end Locks

section Counts

/-- The slots of a ring whose references count: the head does not, once it has been released. -/
def live (s : NodeState A B T C Q) (r : RingId T C) : List B :=
  if s.released r then (s.ring r).contents.tail else (s.ring r).contents

theorem live_setRing [DecidableEq T] [DecidableEq C] {ring : RingBuffer B r.size} :
    (s.setRing r ring released).live =
      Function.update s.live r (if released then ring.contents.tail else ring.contents) := by
  funext r'
  unfold live NodeState.setRing
  by_cases hr : r' = r
  · subst hr
    simp
  · simp [Function.update_of_ne hr]

variable [DecidableEq B]

section Holders

variable [Fintype A]

def holders (gs : A → Holdings B T C) (b : B) : ℕ := total (fun _ g => g.held.count b) gs

theorem count_le_holders : (gs a).held.count b ≤ holders gs b :=
  le_total (fun _ g => g.held.count b) gs a

theorem holders_update [DecidableEq A] (gs : A → Holdings B T C) (a : A) (g : Holdings B T C)
    (b : B) :
    holders (Function.update gs a g) b + (gs a).held.count b =
      holders gs b + g.held.count b :=
  total_update ..

end Holders

section Slots

variable [Fintype T] [Fintype C] [Fintype Q]

def slots (s : NodeState A B T C Q) (b : B) : ℕ :=
  total (fun _ ring => ring.contents.count b) s.ring +
    total (fun _ queue => queue.count b) s.shmQueue

/-- The occupied slots without the heads that have been released. -/
def liveSlots (s : NodeState A B T C Q) (b : B) : ℕ :=
  total (fun _ contents => contents.count b) s.live +
    total (fun _ queue => queue.count b) s.shmQueue

theorem liveSlots_setRing [DecidableEq T] [DecidableEq C] (s : NodeState A B T C Q)
    (r : RingId T C) (ring : RingBuffer B r.size) (released : Bool) (b : B) :
    (s.setRing r ring released).liveSlots b + (s.live r).count b =
      s.liveSlots b + (if released then ring.contents.tail else ring.contents).count b := by
  have h := total_update (fun _ contents => List.count b contents) s.live r
    (if released then ring.contents.tail else ring.contents)
  unfold liveSlots
  rw [live_setRing]
  show _ + total (fun _ queue => queue.count b) s.shmQueue + _ = _
  omega

theorem liveSlots_setQueue [DecidableEq Q] (s : NodeState A B T C Q) (q : Q) (queue : List B)
    (b : B) :
    (s.setQueue q queue).liveSlots b + (s.shmQueue q).count b =
      s.liveSlots b + queue.count b := by
  have h := total_update (fun _ queue => List.count b queue) s.shmQueue q queue
  unfold liveSlots
  show total (fun _ contents => contents.count b) s.live +
    total (fun _ queue => queue.count b) (Function.update s.shmQueue q queue) + _ = _
  omega

end Slots

variable [Fintype A] [Fintype T] [Fintype C] [Fintype Q]

def Counted (s : NodeState A B T C Q) (gs : A → Holdings B T C) : Prop :=
  ∀ b, s.refCnt b = holders gs b + s.liveSlots b

theorem Counted.update [DecidableEq A] (h : s.Counted gs)
    (hstep : ∀ b, s'.refCnt b + (gs a).held.count b + s.liveSlots b =
      s.refCnt b + g.held.count b + s'.liveSlots b) : s'.Counted (Function.update gs a g) := by
  intro b
  have hold := h b
  have hnew := hstep b
  have htotal := holders_update gs a g b
  omega

end Counts

/-- The sends that have returned with an error have left the count as it was. -/
def Settled (gs : A → Holdings B T C) : Prop :=
  ∀ a, ∀ send ∈ (gs a).sends, send.status ≠ .ok → send.change = 0

theorem Settled.update [DecidableEq A] (h : Settled gs) (hsends : ∀ send ∈ g.sends,
    send ∈ (gs a).sends ∨ (send.status ≠ .ok → send.change = 0)) :
    Settled (Function.update gs a g) := by
  intro x send hsend hst
  rw [Function.update_apply] at hsend
  split at hsend
  · rcases hsends send hsend with hold | hnew
    · exact h a send hold hst
    · exact hnew hst
  · exact h x send hsend hst

section Operations

variable [DecidableEq B] [Fintype A] [Fintype T] [Fintype C] [Fintype Q] (isShm : B → Bool)

/-- What every operation keeps under the rules. -/
structure Inv (s : NodeState A B T C Q) (gs : A → Holdings B T C) : Prop where
  locked : s.Locked gs
  counted : s.Counted gs
  pooled : ∃ l, s.Pooled isShm gs l
  settled : Settled gs

variable {isShm}

theorem Inv.refCnt_pos (h : s.Inv isShm gs) (hb : b ∈ (gs a).held) : 0 < s.refCnt b := by
  have hcount := h.counted b
  have hle : (gs a).held.count b ≤ holders gs b := count_le_holders
  have hpos := Multiset.count_pos.mpr hb
  omega

theorem Inv.notMem_of_refCnt_eq_zero (h : s.Inv isShm gs) (hb : s.refCnt b = 0) (a : A) :
    b ∉ (gs a).held := fun hmem => by
  have hpos := h.refCnt_pos hmem
  omega

theorem Inv.isEmpty (h : s.Inv isShm gs) {contents : List B}
    (hview : (gs a).view = some ⟨r, contents, released⟩) (hempty : ¬ (s.ring r).IsEmpty) :
    ∀ v, (gs a).view = some v → v.contents ≠ [] := by
  intro v hv
  obtain rfl := Option.some.inj (hview.symm.trans hv)
  rintro rfl
  have hused := congrArg List.length (h.locked.view_eq hview).1
  rw [RingBuffer.length_contents] at hused
  exact hempty ((RingBuffer.isEmpty_iff _).mpr hused)

theorem Inv.isFull (h : s.Inv isShm gs) {contents : List B}
    (hview : (gs a).view = some ⟨r, contents, released⟩) (hfull : ¬ (s.ring r).IsFull) :
    ∀ v, (gs a).view = some v → v.contents.length + 1 < r.size := by
  intro v hv
  obtain rfl := Option.some.inj (hview.symm.trans hv)
  have hused := congrArg List.length (h.locked.view_eq hview).1
  rw [RingBuffer.length_contents] at hused
  have hlt := (s.ring r).used_lt
  have hne := mt (RingBuffer.isFull_iff _).mpr hfull
  show contents.length + 1 < r.size
  omega

theorem Inv.first (h : s.Inv isShm gs) {rest : List B}
    (hview : (gs a).view = some ⟨r, b :: rest, released⟩) :
    ∀ v, (gs a).view = some v → v.contents.head? = some (s.ring r).first := by
  intro v hv
  obtain rfl := Option.some.inj (hview.symm.trans hv)
  exact congrArg some (h.locked.first_eq hview).1.symm

theorem counted_first [DecidableEq A] (h : s.Inv isShm gs) (hb : s.refCnt b = 0)
    (hrefCnt : s'.refCnt = Function.update s.refCnt b 1) (hslots : s'.liveSlots = s.liveSlots)
    (hheld : g.held = b ::ₘ (gs a).held) : s'.Counted (Function.update gs a g) := by
  refine h.counted.update fun b' => ?_
  rw [hrefCnt, hslots, hheld, Function.update_apply, Multiset.count_cons]
  split
  · subst b'
    simp [hb]
    omega
  · simp

variable [DecidableEq A]

theorem Inv.poolsKept (h : s.Inv isShm gs) (hpools : s'.pools = s.pools)
    (hrefCnt : s'.refCnt = s.refCnt) (hinHand : g.inHand = (gs a).inHand) :
    ∃ l, s'.Pooled isShm (Function.update gs a g) l :=
  h.pooled.imp fun _ hp => hp.update hpools (fun b => by rw [hrefCnt]) hinHand

theorem Inv.refl (h : s.Inv isShm gs) : s.Inv isShm (Function.update gs a (gs a)) := by
  rwa [Function.update_eq_self]

theorem Inv.retain (h : s.Inv isShm gs) (hb : b ∈ (gs a).held) :
    (s.addRef b 1).Inv isShm (Function.update gs a ((gs a).gain b)) where
  locked := h.locked.update rfl rfl rfl rfl
  counted := h.counted.update fun b' => by
    show Function.update s.refCnt b _ b' + _ + s.liveSlots b' =
      _ + (Multiset.count b' (b ::ₘ (gs a).held) : ℕ) + s.liveSlots b'
    rw [Function.update_apply, Multiset.count_cons]
    split
    · simp_all
      omega
    · simp_all
  pooled := h.pooled.imp fun _ hp => hp.update rfl (fun b' => by
    have hpos := h.refCnt_pos hb
    show Function.update s.refCnt b _ b' = 0 ↔ _
    rw [Function.update_apply]
    split
    · subst b'
      omega
    · exact Iff.rfl) rfl
  settled := h.settled.update fun _ hsend => Or.inl hsend

theorem Inv.alloc (h : s.Inv isShm gs) (hfree : s.freeStack b ≠ 0) :
    b ∉ (gs a).held ∧ (s.alloc b).Inv isShm (Function.update gs a ((gs a).gain b)) := by
  obtain ⟨l, hpooled⟩ := h.pooled
  have hzero : s.refCnt b = 0 := by
    by_cases hb : isShm b = true
    · exact absurd (hpooled.stack b hb) hfree
    · refine hpooled.refCnt_eq_zero ?_
      rwa [freePlaces_of_not_shm (by simpa using hb)]
  exact ⟨h.notMem_of_refCnt_eq_zero hzero a, h.locked.update rfl rfl rfl rfl,
    counted_first h hzero rfl rfl rfl, ⟨l, hpooled.alloc hfree⟩,
    h.settled.update fun _ hsend => Or.inl hsend⟩

theorem Inv.pop (h : s.Inv isShm gs) (hidle : (gs a).inHand = none)
    (hhead : s.freeListHead = some b) {next : Option B} (hnext : s.nextFree b = next) :
    (s.pop b next).Inv isShm
      (Function.update gs a { gs a with inHand := some ⟨b, none⟩ }) where
  locked := h.locked.update rfl rfl rfl rfl
  counted := h.counted.update fun _ => rfl
  pooled := by
    obtain ⟨l, hpooled⟩ := h.pooled
    exact hpooled.pop hidle hhead hnext rfl
  settled := h.settled.update fun _ hsend => Or.inl hsend

theorem Inv.storeCount (h : s.Inv isShm gs) {link : Option (Option B)}
    (ha : (gs a).inHand = some ⟨b, link⟩) :
    b ∉ (gs a).held ∧ (s.storeCount b).Inv isShm
      (Function.update gs a { (gs a).gain b with inHand := none }) := by
  obtain ⟨l, hpooled⟩ := h.pooled
  have hzero := (hpooled.of_inHand ha).1
  exact ⟨h.notMem_of_refCnt_eq_zero hzero a, h.locked.update rfl rfl rfl rfl,
    counted_first h hzero rfl rfl rfl, ⟨l, hpooled.storeCount ha rfl⟩,
    h.settled.update fun _ hsend => Or.inl hsend⟩

theorem Inv.giveBack (h : s.Inv isShm gs) (hb : isShm b = false) {link : Option (Option B)}
    (ha : (gs a).inHand = some ⟨b, link⟩) :
    (s.giveBack b).Inv isShm (Function.update gs a { gs a with inHand := none }) where
  locked := h.locked.update rfl rfl rfl rfl
  counted := h.counted.update fun _ => rfl
  pooled := h.pooled.imp fun _ hp => hp.giveBack hb ha rfl
  settled := h.settled.update fun _ hsend => Or.inl hsend

theorem Inv.setNextFree (h : s.Inv isShm gs) {link : Option (Option B)} {next : Option B}
    (ha : (gs a).inHand = some ⟨b, link⟩) :
    (s.setNextFree b next).Inv isShm
      (Function.update gs a { gs a with inHand := some ⟨b, some next⟩ }) where
  locked := h.locked.update rfl rfl rfl rfl
  counted := h.counted.update fun _ => rfl
  pooled := h.pooled.imp fun _ hp => hp.setNextFree ha rfl
  settled := h.settled.update fun _ hsend => Or.inl hsend

theorem Inv.pushFree (h : s.Inv isShm gs) (hb : isShm b = true) {next : Option B}
    (ha : (gs a).inHand = some ⟨b, some next⟩) (hhead : s.freeListHead = next) :
    (s.pushFree b).Inv isShm (Function.update gs a { gs a with inHand := none }) where
  locked := h.locked.update rfl rfl rfl rfl
  counted := h.counted.update fun _ => rfl
  pooled := by
    obtain ⟨l, hpooled⟩ := h.pooled
    exact ⟨b :: l, hpooled.pushFree hb ha hhead rfl⟩
  settled := h.settled.update fun _ hsend => Or.inl hsend

theorem Inv.callSend (h : s.Inv isShm gs) :
    s.Inv isShm (Function.update gs a { gs a with mark := (gs a).net b }) where
  locked := h.locked.update rfl rfl rfl rfl
  counted := h.counted.update fun _ => rfl
  pooled := h.poolsKept rfl rfl rfl
  settled := h.settled.update fun _ hsend => Or.inl hsend

theorem Inv.returnSend (h : s.Inv isShm gs) {st : NosStatus}
    (hst : st ≠ .ok → (gs a).net b = (gs a).mark) :
    s.Inv isShm (Function.update gs a
      { gs a with sends := ⟨b, st, (gs a).net b - (gs a).mark⟩ :: (gs a).sends }) where
  locked := h.locked.update rfl rfl rfl rfl
  counted := h.counted.update fun _ => rfl
  pooled := h.poolsKept rfl rfl rfl
  settled := h.settled.update fun send hsend => by
    rcases List.mem_cons.mp hsend with rfl | hsend
    · exact Or.inr fun hne => by simp [hst hne]
    · exact Or.inl hsend

theorem Inv.shmEnqueue [DecidableEq Q] (h : s.Inv isShm gs) (hb : b ∈ (gs a).held) (q : Q) :
    (s.setQueue q (s.shmQueue q ++ [b])).Inv isShm (Function.update gs a ((gs a).put b)) where
  locked := h.locked.update rfl rfl rfl rfl
  counted := h.counted.update fun b' => by
    have hslots := liveSlots_setQueue s q (s.shmQueue q ++ [b]) b'
    have hpos := Multiset.count_pos.mpr hb
    rw [List.count_append] at hslots
    show s.refCnt b' + _ + _ = _ + (((gs a).held.erase b).count b' : ℕ) + _
    by_cases hb' : b' = b
    · subst b'
      rw [Multiset.count_erase_self]
      simp at hslots
      omega
    · rw [Multiset.count_erase_of_ne hb']
      simp [Ne.symm hb'] at hslots
      omega
  pooled := h.poolsKept rfl rfl rfl
  settled := h.settled.update fun _ hsend => Or.inl hsend

theorem Inv.shmDequeue [DecidableEq Q] (h : s.Inv isShm gs) (hq : s.shmQueue q = b :: queue) :
    (s.setQueue q queue).Inv isShm (Function.update gs a ((gs a).take b)) where
  locked := h.locked.update rfl rfl rfl rfl
  counted := h.counted.update fun b' => by
    have hslots := liveSlots_setQueue s q queue b'
    rw [hq, List.count_cons] at hslots
    show s.refCnt b' + _ + _ = _ + ((b ::ₘ (gs a).held).count b' : ℕ) + _
    rw [Multiset.count_cons]
    by_cases hb' : b' = b
    · simp [hb'] at hslots ⊢
      omega
    · simp [hb', Ne.symm hb'] at hslots ⊢
      omega
  pooled := h.poolsKept rfl rfl rfl
  settled := h.settled.update fun _ hsend => Or.inl hsend

variable [DecidableEq T] [DecidableEq C]

theorem Inv.release (h : s.Inv isShm gs) (hb : b ∈ (gs a).held) (hidle : (gs a).inHand = none) :
    (s.decRef .code b).Inv isShm
      (Function.update gs a ((gs a).drop .code b (decide (s.refCnt b = 1)))) where
  locked := h.locked.update rfl rfl rfl rfl
  counted := h.counted.update fun b' => by
    show Function.update s.refCnt b _ b' + _ + s.liveSlots b' =
      _ + (((gs a).held.erase b).count b' : ℕ) + s.liveSlots b'
    have hpos := Multiset.count_pos.mpr hb
    rw [Function.update_apply]
    split
    · subst b'
      rw [Multiset.count_erase_self]
      omega
    · rw [Multiset.count_erase_of_ne ‹_›]
  pooled := h.pooled.imp fun _ hp =>
    hp.decRef (h.refCnt_pos hb) hidle rfl rfl (by simp [Holdings.drop, hidle])
  settled := h.settled.update fun _ hsend => Or.inl hsend

theorem Inv.lock (h : s.Inv isShm gs) (hfree : s.lockOwner r = none) (hview : (gs a).view = none) :
    (s.setLock r (some a)).Inv isShm
      (Function.update gs a ((gs a).setView (some ⟨r, (s.ring r).contents, s.released r⟩))) where
  locked := h.locked.lock hfree hview rfl
  counted := h.counted.update fun _ => rfl
  pooled := h.poolsKept rfl rfl rfl
  settled := h.settled.update fun _ hsend => Or.inl hsend

theorem Inv.unlock (h : s.Inv isShm gs) {contents : List B}
    (hview : (gs a).view = some ⟨r, contents, false⟩) :
    (s.setLock r none).Inv isShm (Function.update gs a ((gs a).setView none)) where
  locked := h.locked.unlock hview rfl rfl
  counted := h.counted.update fun _ => rfl
  pooled := h.poolsKept rfl rfl rfl
  settled := h.settled.update fun _ hsend => Or.inl hsend

theorem Inv.push (h : s.Inv isShm gs) (hb : b ∈ (gs a).held) {contents : List B}
    (hview : (gs a).view = some ⟨r, contents, false⟩) (hroom : contents.length + 1 < r.size) :
    (s.setRing r ((s.ring r).push b) (s.released r)).Inv isShm
      (Function.update gs a (((gs a).put b).setView ((gs a).view.map (·.push b)))) := by
  obtain ⟨hcontents, hreleased⟩ := h.locked.view_eq hview
  have hfull : ¬ (s.ring r).IsFull := by
    rw [RingBuffer.isFull_iff, ← RingBuffer.length_contents, hcontents]
    omega
  have hpush := RingBuffer.contents_push (s.ring r) (a := b) hfull
  have hlive : s.live r = contents := by simp [live, hreleased, hcontents]
  refine ⟨?_, h.counted.update fun b' => ?_, h.poolsKept rfl rfl rfl,
    h.settled.update fun _ hsend => Or.inl hsend⟩
  · refine h.locked.setRing hview ?_
    show (gs a).view.map _ = _
    rw [hview, hpush, hreleased, hcontents]
    rfl
  · have hslots := liveSlots_setRing s r ((s.ring r).push b) (s.released r) b'
    rw [hlive, hreleased, if_neg (by simp), hpush, hcontents, List.count_append] at hslots
    rw [hreleased]
    show s.refCnt b' + _ + _ = _ + (((gs a).held.erase b).count b' : ℕ) + _
    have hpos := Multiset.count_pos.mpr hb
    by_cases hb' : b' = b
    · subst b'
      rw [Multiset.count_erase_self]
      simp at hslots
      omega
    · rw [Multiset.count_erase_of_ne hb']
      simp [Ne.symm hb'] at hslots
      omega

/-- The head moves on: its reference is the thread's, unless it has been released before. -/
theorem Inv.advance (h : s.Inv isShm gs) {rest : List B}
    (hview : (gs a).view = some ⟨r, b :: rest, released⟩) :
    (s.setRing r (s.ring r).advance false).Inv isShm (Function.update gs a
      ((if released then gs a else (gs a).take b).setView (some ⟨r, rest, false⟩))) := by
  obtain ⟨hcontents, hreleased⟩ := h.locked.view_eq hview
  obtain ⟨-, hrest⟩ := h.locked.first_eq hview
  have hlive : s.live r = if released then rest else b :: rest := by
    simp only [live, hreleased, hcontents, List.tail_cons]
  have hlocked := h.locked.setRing (g := (if released then gs a else (gs a).take b).setView
    (some ⟨r, rest, false⟩)) hview (by rw [← hrest]; rfl)
  have hslots := liveSlots_setRing s r (s.ring r).advance false
  simp only [hlive, hrest, Bool.false_eq_true, if_false] at hslots
  refine ⟨hlocked, h.counted.update fun b' => ?_, ?_, h.settled.update fun send hsend => ?_⟩
  · have hb' := hslots b'
    cases released with
    | true =>
      show s.refCnt b' + ((gs a).held.count b' : ℕ) + _ =
        s.refCnt b' + ((gs a).held.count b' : ℕ) + _
      simp at hb'
      omega
    | false =>
      show s.refCnt b' + ((gs a).held.count b' : ℕ) + _ =
        s.refCnt b' + ((b ::ₘ (gs a).held).count b' : ℕ) + _
      rw [if_neg (by simp), List.count_cons] at hb'
      rw [Multiset.count_cons]
      by_cases heq : b' = b
      · simp [heq] at hb' ⊢
        omega
      · simp [heq, Ne.symm heq] at hb' ⊢
        omega
  · cases released
    · exact h.poolsKept rfl rfl rfl
    · exact h.poolsKept rfl rfl rfl
  · cases released
    · exact Or.inl hsend
    · exact Or.inl hsend

variable [DecidableEq Q]

end Operations

end NodeState

end GeminiNOS

import GeminiNOS.Foundations.References
import GeminiNOS.Shm.BlockPool

/-! # Soundness of the shared-memory block pool

A pop compares the head of the free list with the one it has read, but not the
link that it has read from it. Runs in which these links are still right when
they are used keep every block on the free list, held, or in the hands of one
process.
-/

namespace GeminiNOS.ShmPool

open Foundations Run References

variable {P : Type*} [DecidableEq P]

def PcSound (nextFree : ℕ → ℕ) : ShmPc → Prop
  | .allocNext head | .allocCas head _ => head ≠ 0
  | .pushCas blk head => nextFree blk = head
  | _ => True

/-- The list is the free list, and every other block is held, with the right count, or in the hands
of one process that pops or pushes it. -/
structure Inv (s : ShmPool P) (l : List ℕ) : Prop where
  isChain : IndexChain.IsChain s.nextFree 0 s.freeListHead l
  free_unheld : ∀ p blk, (p, blk) ∈ s.holders → blk ∉ l
  free_idle : ∀ p blk, (s.pc p).busy = some blk → blk ∉ l
  busy_unheld : ∀ p q blk, (s.pc p).busy = some blk → (q, blk) ∉ s.holders
  busy_unique : ∀ p q blk, (s.pc p).busy = some blk → (s.pc q).busy = some blk → q = p
  busy_ne_zero : ∀ p blk, (s.pc p).busy = some blk → blk ≠ 0
  held_ne_zero : ∀ p blk, (p, blk) ∈ s.holders → blk ≠ 0
  pcs : ∀ p, PcSound s.nextFree (s.pc p)
  counted : ∀ p blk, (p, blk) ∈ s.holders →
    s.refCount blk = refs s.holders blk ∧ refs s.holders blk < 2 ^ 32
  covered : ∀ blk, IsShmBlock blk →
    blk ∈ l ∨ (∃ p, (p, blk) ∈ s.holders) ∨ ∃ p, (s.pc p).busy = some blk

variable {s s' : ShmPool P} {l : List ℕ} {p q : P} {blk head next : ℕ} {pc : ShmPc}
  {holders : List (P × ℕ)}

theorem busy_of_popped (h : pc.popped = some blk) : pc.busy = some blk := by
  cases pc <;> first | exact h | cases h

omit [DecidableEq P] in
theorem Inv.sound (h : s.Inv l) : s.Sound := by
  refine ⟨l, h.isChain, h.free_unheld, fun p blk hp => ⟨fun q => ?_, fun q hq => ?_⟩, ?_⟩
  · exact h.busy_unheld p q blk (busy_of_popped hp)
  · exact h.busy_unique p q blk (busy_of_popped hp) (busy_of_popped hq)
  · intro blk hblk hheld hbusy
    rcases h.covered blk hblk with hl | ⟨p, hp⟩ | ⟨p, hp⟩
    · exact hl
    · exact absurd hp (hheld p)
    · exact absurd hp (hbusy p)

theorem pc_setPc : (s.setPc p pc).pc q = if q = p then pc else s.pc q := Function.update_apply ..

theorem busy_setPc : ((s.setPc p pc).pc q).busy = some blk ↔
    q = p ∧ pc.busy = some blk ∨ q ≠ p ∧ (s.pc q).busy = some blk := by
  rw [pc_setPc]
  split <;> simp [*]

theorem busy_setPc_none (hpc : pc.busy = none) : ((s.setPc p pc).pc q).busy = some blk ↔
    q ≠ p ∧ (s.pc q).busy = some blk := by
  simp [busy_setPc, hpc]

omit [DecidableEq P] in
theorem Inv.ne_of_busy (h : s.Inv l) (hp : (s.pc p).busy = some blk) {b : ℕ} (hne : q ≠ p)
    (hq : (s.pc q).busy = some b) : b ≠ blk := by
  rintro rfl
  exact hne (h.busy_unique p q b hp hq)

theorem Inv.pcs_setPc (h : s.Inv l) (hpc : PcSound s.nextFree pc) (q : P) :
    PcSound s.nextFree ((s.setPc p pc).pc q) := by
  rw [pc_setPc]
  split
  · exact hpc
  · exact h.pcs q

theorem Inv.setPc (h : s.Inv l) (hbusy : pc.busy = (s.pc p).busy) (hpc : PcSound s.nextFree pc) :
    (s.setPc p pc).Inv l := by
  have hb : ∀ q, ((s.setPc p pc).pc q).busy = (s.pc q).busy := by
    intro q
    rw [pc_setPc]
    split
    · rw [hbusy, ‹q = p›]
    · rfl
  exact
    { isChain := h.isChain
      free_unheld := h.free_unheld
      free_idle := fun q blk hq => h.free_idle q blk (hb q ▸ hq)
      busy_unheld := fun q r blk hq => h.busy_unheld q r blk (hb q ▸ hq)
      busy_unique := fun q r blk hq hr => h.busy_unique q r blk (hb q ▸ hq) (hb r ▸ hr)
      busy_ne_zero := fun q blk hq => h.busy_ne_zero q blk (hb q ▸ hq)
      held_ne_zero := h.held_ne_zero
      pcs := h.pcs_setPc hpc
      counted := h.counted
      covered := fun blk hblk => by
        rcases h.covered blk hblk with hl | hheld | ⟨q, hq⟩
        · exact Or.inl hl
        · exact Or.inr (Or.inl hheld)
        · exact Or.inr (Or.inr ⟨q, (hb q).trans hq⟩) }

omit [DecidableEq P] in
theorem Inv.setTotal (h : s.Inv l) (n : ℕ) : ({ s with totalAllocated := n } : ShmPool P).Inv l :=
  { h with }

/-- A successful pop with a fresh link. -/
theorem Inv.pop (h : s.Inv l) (hpc : s.pc p = .allocCas head next) (hhead : s.freeListHead = head)
    (hlink : s.nextFree head = next) :
    ∃ l', ({ s with freeListHead := next }.setPc p (.allocCount head) : ShmPool P).Inv l' := by
  have hne : head ≠ 0 := by simpa [hpc, PcSound] using h.pcs p
  have hchain := h.isChain
  obtain _ | ⟨b, l⟩ := l
  · exact absurd (hhead.symm.trans hchain) hne
  obtain ⟨hb, -, hrest⟩ := hchain
  obtain rfl : head = b := hhead.symm.trans hb
  have hhl : head ∉ l := (List.nodup_cons.mp h.isChain.nodup).1
  have hfree : ∀ q, (s.pc q).busy ≠ some head := fun q hq =>
    h.free_idle q head hq List.mem_cons_self
  have hunheld : ∀ q, (q, head) ∉ s.holders := fun q hq =>
    h.free_unheld q head hq List.mem_cons_self
  refine ⟨l, ?_⟩
  refine
    { isChain := hlink ▸ hrest
      free_unheld := fun q blk hq hl => h.free_unheld q blk hq (List.mem_cons_of_mem _ hl)
      free_idle := ?_
      busy_unheld := ?_
      busy_unique := ?_
      busy_ne_zero := ?_
      held_ne_zero := h.held_ne_zero
      pcs := h.pcs_setPc trivial
      counted := h.counted
      covered := ?_ }
  · intro q blk hq hl
    rcases busy_setPc.mp hq with ⟨-, ⟨⟩⟩ | ⟨-, hq⟩
    · exact hhl hl
    · exact h.free_idle q blk hq (List.mem_cons_of_mem _ hl)
  · intro q r blk hq
    rcases busy_setPc.mp hq with ⟨-, ⟨⟩⟩ | ⟨-, hq⟩
    · exact hunheld r
    · exact h.busy_unheld q r blk hq
  · intro q r blk hq hr
    rcases busy_setPc.mp hq with ⟨rfl, ⟨⟩⟩ | ⟨-, hq⟩ <;>
      rcases busy_setPc.mp hr with ⟨rfl, hblk⟩ | ⟨-, hr⟩
    · rfl
    · exact absurd hr (hfree r)
    · obtain rfl : head = _ := Option.some.inj hblk
      exact absurd ‹(s.pc q).busy = some head› (hfree q)
    · exact h.busy_unique q r blk hq hr
  · intro q blk hq
    rcases busy_setPc.mp hq with ⟨-, ⟨⟩⟩ | ⟨-, hq⟩
    · exact hne
    · exact h.busy_ne_zero q blk hq
  · intro blk hblk
    rcases h.covered blk hblk with hl | hheld | ⟨q, hq⟩
    · rcases List.mem_cons.mp hl with rfl | hl
      · exact Or.inr (Or.inr ⟨p, busy_setPc.mpr (Or.inl ⟨rfl, rfl⟩)⟩)
      · exact Or.inl hl
    · exact Or.inr (Or.inl hheld)
    · refine Or.inr (Or.inr ⟨q, busy_setPc.mpr (Or.inr ⟨?_, hq⟩)⟩)
      rintro rfl
      simp [hpc, ShmPc.busy] at hq

theorem Inv.allocated (h : s.Inv l) (hpc : s.pc p = .allocStore blk) :
    ({ s with
      refCount := Function.update s.refCount blk 1
      holders := (p, blk) :: s.holders }.setPc p .idle : ShmPool P).Inv l := by
  have hp : (s.pc p).busy = some blk := by rw [hpc]; rfl
  have hzero : refs s.holders blk = 0 :=
    refs_eq_zero_iff.mpr fun q hq => h.busy_unheld p q blk hp hq
  refine
    { isChain := h.isChain
      free_unheld := ?_
      free_idle := ?_
      busy_unheld := ?_
      busy_unique := ?_
      busy_ne_zero := ?_
      held_ne_zero := ?_
      pcs := h.pcs_setPc trivial
      counted := ?_
      covered := ?_ }
  · intro q b hq
    rcases List.mem_cons.mp hq with he | hq
    · cases he
      exact h.free_idle _ _ hp
    · exact h.free_unheld q b hq
  · intro q b hq
    exact h.free_idle q b ((busy_setPc_none rfl).mp hq).2
  · intro q r b hq hr
    obtain ⟨hne, hq⟩ := (busy_setPc_none rfl).mp hq
    rcases List.mem_cons.mp hr with he | hr
    · exact h.ne_of_busy hp hne hq (Prod.mk.inj he).2
    · exact h.busy_unheld q r b hq hr
  · intro q r b hq hr
    exact h.busy_unique q r b ((busy_setPc_none rfl).mp hq).2 ((busy_setPc_none rfl).mp hr).2
  · intro q b hq
    exact h.busy_ne_zero q b ((busy_setPc_none rfl).mp hq).2
  · intro q b hq
    rcases List.mem_cons.mp hq with he | hq
    · cases he
      exact h.busy_ne_zero _ _ hp
    · exact h.held_ne_zero q b hq
  · intro q b hq
    show Function.update s.refCount blk 1 b = refs ((p, blk) :: s.holders) b ∧
      refs ((p, blk) :: s.holders) b < 2 ^ 32
    by_cases hb : b = blk
    · subst hb
      simp [hzero]
    · rw [Function.update_of_ne hb, refs_cons_of_ne hb]
      rcases List.mem_cons.mp hq with he | hq
      · exact absurd (Prod.mk.inj he).2 hb
      · exact h.counted q b hq
  · intro b hb
    rcases h.covered b hb with hl | ⟨q, hq⟩ | ⟨q, hq⟩
    · exact Or.inl hl
    · exact Or.inr (Or.inl ⟨q, List.mem_cons_of_mem _ hq⟩)
    · by_cases hqp : q = p
      · subst hqp
        cases hp.symm.trans hq
        exact Or.inr (Or.inl ⟨q, List.mem_cons_self⟩)
      · exact Or.inr (Or.inr ⟨q, busy_setPc.mpr (Or.inr ⟨hqp, hq⟩)⟩)

omit [DecidableEq P] in
/-- Changes to the references that leave the held blocks held and the counts right. -/
theorem Inv.rehold (h : s.Inv l) {refCount : ℕ → ℕ}
    (hheld : ∀ b, (∃ q, (q, b) ∈ holders) ↔ ∃ q, (q, b) ∈ s.holders)
    (hcount : ∀ q b, (q, b) ∈ holders → refCount b = refs holders b ∧ refs holders b < 2 ^ 32) :
    ({ s with refCount := refCount, holders := holders } : ShmPool P).Inv l where
  isChain := h.isChain
  free_unheld q b hq := by
    obtain ⟨r, hr⟩ := (hheld b).mp ⟨q, hq⟩
    exact h.free_unheld r b hr
  free_idle := h.free_idle
  busy_unheld q r b hq hr := by
    obtain ⟨r', hr'⟩ := (hheld b).mp ⟨r, hr⟩
    exact h.busy_unheld q r' b hq hr'
  busy_unique := h.busy_unique
  busy_ne_zero := h.busy_ne_zero
  held_ne_zero q b hq := by
    obtain ⟨r, hr⟩ := (hheld b).mp ⟨q, hq⟩
    exact h.held_ne_zero r b hr
  pcs := h.pcs
  counted := hcount
  covered b hb := by
    rw [hheld]
    exact h.covered b hb

omit [DecidableEq P] in
theorem Inv.retain (h : s.Inv l) (hp : (p, blk) ∈ s.holders)
    (hroom : s.refCount blk + 1 < 2 ^ 32) :
    ({ s with
      refCount := Function.update s.refCount blk (u32 (s.refCount blk + 1))
      holders := (p, blk) :: s.holders } : ShmPool P).Inv l := by
  refine h.rehold (fun b => ⟨?_, fun ⟨q, hq⟩ => ⟨q, List.mem_cons_of_mem _ hq⟩⟩) fun q b hq => ?_
  · rintro ⟨q, hq⟩
    rcases List.mem_cons.mp hq with he | hq
    · cases he
      exact ⟨_, hp⟩
    · exact ⟨q, hq⟩
  · by_cases hb : b = blk
    · subst hb
      have := h.counted p b hp
      rw [Function.update_self, refs_cons_self, u32, Nat.mod_eq_of_lt hroom]
      omega
    · rw [Function.update_of_ne hb, refs_cons_of_ne hb]
      rcases List.mem_cons.mp hq with he | hq
      · exact absurd (Prod.mk.inj he).2 hb
      · exact h.counted q b hq

theorem Inv.give (h : s.Inv l) (hp : (p, blk) ∈ s.holders) :
    ({ s with holders := (q, blk) :: s.holders.erase (p, blk) } : ShmPool P).Inv l := by
  have hperm : ∀ b, refs ((q, blk) :: s.holders.erase (p, blk)) b = refs s.holders b := fun b =>
    refs_cons_erase q hp
  have hheld : ∀ b, (∃ r, (r, b) ∈ (q, blk) :: s.holders.erase (p, blk)) ↔
      ∃ r, (r, b) ∈ s.holders := fun b =>
    ⟨fun ⟨r, hr⟩ => exists_of_refs_pos (hperm b ▸ refs_pos hr),
      fun ⟨r, hr⟩ => exists_of_refs_pos ((hperm b).symm ▸ refs_pos hr)⟩
  refine h.rehold hheld fun r b hr => ?_
  obtain ⟨r', hr'⟩ := (hheld b).mp ⟨r, hr⟩
  rw [hperm]
  exact h.counted r' b hr'

theorem Inv.drop (h : s.Inv l) (hp : (p, blk) ∈ s.holders) (hlast : s.refCount blk ≠ 1) :
    ({ s with
      refCount := Function.update s.refCount blk (u32 (s.refCount blk + (2 ^ 32 - 1)))
      holders := s.holders.erase (p, blk) } : ShmPool P).Inv l := by
  have hcount := h.counted p blk hp
  have hpos := refs_pos hp
  have herase := refs_erase_self hp
  refine h.rehold (fun b => ⟨fun ⟨q, hq⟩ => ⟨q, List.mem_of_mem_erase hq⟩, ?_⟩) fun q b hq => ?_
  · rintro ⟨q, hq⟩
    by_cases hb : b = blk
    · subst hb
      exact exists_of_refs_pos (by omega)
    · exact ⟨q, (List.mem_erase_of_ne (fun he => hb (Prod.mk.inj he).2)).mpr hq⟩
  · by_cases hb : b = blk
    · subst hb
      rw [Function.update_self, u32, Nat.mod_eq_sub_mod (by omega), Nat.mod_eq_of_lt (by omega)]
      omega
    · rw [Function.update_of_ne hb, refs_erase_of_ne hb]
      exact h.counted q b (List.mem_of_mem_erase hq)

/-- The last release takes the block in hand to push it. -/
theorem Inv.dropLast (h : s.Inv l) (hidle : s.pc p = .idle) (hp : (p, blk) ∈ s.holders)
    (hlast : s.refCount blk = 1) {n : ℕ} :
    ({ s with
      refCount := Function.update s.refCount blk n
      holders := s.holders.erase (p, blk) }.setPc p (.pushLoad blk) : ShmPool P).Inv l := by
  have hcount := h.counted p blk hp
  have herase := refs_erase_self hp
  have hgone : ∀ q, (q, blk) ∉ s.holders.erase (p, blk) := by
    intro q hq
    have := refs_pos hq
    omega
  have hfree : ∀ q, (s.pc q).busy ≠ some blk := fun q hq => h.busy_unheld q p blk hq hp
  refine
    { isChain := h.isChain
      free_unheld := fun q b hq => h.free_unheld q b (List.mem_of_mem_erase hq)
      free_idle := ?_
      busy_unheld := ?_
      busy_unique := ?_
      busy_ne_zero := ?_
      held_ne_zero := fun q b hq => h.held_ne_zero q b (List.mem_of_mem_erase hq)
      pcs := h.pcs_setPc trivial
      counted := ?_
      covered := ?_ }
  · intro q b hq
    rcases busy_setPc.mp hq with ⟨-, ⟨⟩⟩ | ⟨-, hq⟩
    · exact h.free_unheld p _ hp
    · exact h.free_idle q b hq
  · intro q r b hq
    rcases busy_setPc.mp hq with ⟨-, ⟨⟩⟩ | ⟨-, hq⟩
    · exact hgone r
    · exact fun hr => h.busy_unheld q r b hq (List.mem_of_mem_erase hr)
  · intro q r b hq hr
    rcases busy_setPc.mp hq with ⟨rfl, ⟨⟩⟩ | ⟨-, hq'⟩ <;>
      rcases busy_setPc.mp hr with ⟨rfl, hblk⟩ | ⟨-, hr'⟩
    · rfl
    · exact absurd hr' (hfree r)
    · obtain rfl : blk = b := Option.some.inj hblk
      exact absurd hq' (hfree q)
    · exact h.busy_unique q r b hq' hr'
  · intro q b hq
    rcases busy_setPc.mp hq with ⟨-, ⟨⟩⟩ | ⟨-, hq⟩
    · exact h.held_ne_zero p _ hp
    · exact h.busy_ne_zero q b hq
  · intro q b hq
    have hb : b ≠ blk := by
      rintro rfl
      exact hgone q hq
    show Function.update s.refCount blk n b = refs (s.holders.erase (p, blk)) b ∧
      refs (s.holders.erase (p, blk)) b < 2 ^ 32
    rw [Function.update_of_ne hb, refs_erase_of_ne hb]
    exact h.counted q b (List.mem_of_mem_erase hq)
  · intro b hb
    by_cases hblk : b = blk
    · subst hblk
      exact Or.inr (Or.inr ⟨p, busy_setPc.mpr (Or.inl ⟨rfl, rfl⟩)⟩)
    · rcases h.covered b hb with hl | ⟨q, hq⟩ | ⟨q, hq⟩
      · exact Or.inl hl
      · exact Or.inr (Or.inl ⟨q, (List.mem_erase_of_ne fun he => hblk (Prod.mk.inj he).2).mpr hq⟩)
      · refine Or.inr (Or.inr ⟨q, busy_setPc.mpr (Or.inr ⟨?_, hq⟩)⟩)
        rintro rfl
        simp [hidle, ShmPc.busy] at hq

theorem Inv.pushStore (h : s.Inv l) (hpc : s.pc p = .pushStore blk head) :
    ({ s with nextFree := Function.update s.nextFree blk head }.setPc p
      (.pushCas blk head) : ShmPool P).Inv l := by
  have hp : (s.pc p).busy = some blk := by rw [hpc]; rfl
  have hwritten : ({ s with nextFree := Function.update s.nextFree blk head } : ShmPool P).Inv l :=
    { h with
      isChain := h.isChain.update (h.free_idle p blk hp) head
      pcs := fun q => by
        have hq := h.pcs q
        cases hpcq : s.pc q <;> rw [hpcq] at hq <;> try exact hq
        rename_i b hd
        show Function.update s.nextFree blk head b = hd
        rw [Function.update_of_ne, hq]
        rintro rfl
        obtain rfl := h.busy_unique p q b hp (by rw [hpcq]; rfl)
        rw [hpc] at hpcq
        cases hpcq }
  refine hwritten.setPc (by rw [hpc]; rfl) ?_
  exact Function.update_self ..

/-- A successful push; the head that it compares may have been away in between. -/
theorem Inv.push (h : s.Inv l) (hpc : s.pc p = .pushCas blk head)
    (hhead : s.freeListHead = head) :
    ({ s with freeListHead := blk }.setPc p .releaseCount : ShmPool P).Inv (blk :: l) := by
  have hp : (s.pc p).busy = some blk := by rw [hpc]; rfl
  have hlink : s.nextFree blk = head := by simpa [hpc, PcSound] using h.pcs p
  refine
    { isChain := h.isChain.push (h.busy_ne_zero p blk hp) (hlink.trans hhead.symm)
      free_unheld := ?_
      free_idle := ?_
      busy_unheld := ?_
      busy_unique := ?_
      busy_ne_zero := ?_
      held_ne_zero := h.held_ne_zero
      pcs := h.pcs_setPc trivial
      counted := h.counted
      covered := ?_ }
  · intro q b hq hl
    rcases List.mem_cons.mp hl with rfl | hl
    · exact h.busy_unheld p q b hp hq
    · exact h.free_unheld q b hq hl
  · intro q b hq hl
    obtain ⟨hne, hq⟩ := (busy_setPc_none rfl).mp hq
    rcases List.mem_cons.mp hl with rfl | hl
    · exact h.ne_of_busy hp hne hq rfl
    · exact h.free_idle q b hq hl
  · intro q r b hq
    exact h.busy_unheld q r b ((busy_setPc_none rfl).mp hq).2
  · intro q r b hq hr
    exact h.busy_unique q r b ((busy_setPc_none rfl).mp hq).2 ((busy_setPc_none rfl).mp hr).2
  · intro q b hq
    exact h.busy_ne_zero q b ((busy_setPc_none rfl).mp hq).2
  · intro b hb
    rcases h.covered b hb with hl | hheld | ⟨q, hq⟩
    · exact Or.inl (List.mem_cons_of_mem _ hl)
    · exact Or.inr (Or.inl hheld)
    · by_cases hqp : q = p
      · subst hqp
        cases hp.symm.trans hq
        exact Or.inl List.mem_cons_self
      · exact Or.inr (Or.inr ⟨q, busy_setPc.mpr (Or.inr ⟨hqp, hq⟩)⟩)

theorem Inv.stepNext (h : s.Inv l) {spurious : Bool} (hfresh : s.LinkFresh (.next p spurious))
    (hs : s.stepNext p spurious = some s') : ∃ l', s'.Inv l' := by
  unfold ShmPool.stepNext at hs
  split at hs <;> rename_i hpc
  · cases hs
  · split at hs <;> rename_i hhead <;> obtain rfl := Option.some.inj hs
    · exact ⟨l, h.setPc (by rw [hpc]; rfl) trivial⟩
    · exact ⟨l, h.setPc (by rw [hpc]; rfl) hhead⟩
  · obtain rfl := Option.some.inj hs
    refine ⟨l, h.setPc (by rw [hpc]; rfl) ?_⟩
    simpa [hpc, PcSound] using h.pcs p
  · split at hs <;> rename_i hcas <;> obtain rfl := Option.some.inj hs
    · exact h.pop hpc hcas.1 (hfresh _ _ hpc hcas.1 hcas.2)
    · exact ⟨l, h.setPc (by rw [hpc]; rfl) trivial⟩
  · obtain rfl := Option.some.inj hs
    exact ⟨l, (h.setTotal _).setPc (by rw [hpc]; rfl) trivial⟩
  · obtain rfl := Option.some.inj hs
    exact ⟨l, h.allocated hpc⟩
  · obtain rfl := Option.some.inj hs
    exact ⟨l, h.setPc (by rw [hpc]; rfl) trivial⟩
  · obtain rfl := Option.some.inj hs
    exact ⟨l, h.pushStore hpc⟩
  · split at hs <;> rename_i hcas <;> obtain rfl := Option.some.inj hs
    · exact ⟨_, h.push hpc hcas.1⟩
    · exact ⟨l, h.setPc (by rw [hpc]; rfl) trivial⟩
  · obtain rfl := Option.some.inj hs
    exact ⟨l, (h.setTotal _).setPc (by rw [hpc]; rfl) trivial⟩

theorem Inv.step (h : s.Inv l) {action : ShmAction P} (hfresh : s.LinkFresh action)
    (hs : s.step action = some s') : ∃ l', s'.Inv l' := by
  cases action with
  | alloc p size =>
    simp only [ShmPool.step] at hs
    split at hs
    · cases hs
    · rename_i hidle
      split at hs <;> obtain rfl := Option.some.inj hs
      · exact ⟨l, h⟩
      · exact ⟨l, h.setPc (by rw [not_not.mp hidle]; rfl) trivial⟩
  | retain p blk =>
    simp only [ShmPool.step] at hs
    split at hs
    · obtain rfl := Option.some.inj hs
      exact ⟨l, h.retain ‹_ ∧ _›.2 hfresh⟩
    · cases hs
  | release p blk =>
    simp only [ShmPool.step] at hs
    split at hs
    · rename_i hheld
      obtain rfl := Option.some.inj hs
      split
      · exact ⟨l, h.dropLast hheld.1 hheld.2 ‹_›⟩
      · exact ⟨l, (h.drop hheld.2 ‹_›).setPc (by rw [hheld.1]) trivial⟩
    · cases hs
  | give p q blk =>
    simp only [ShmPool.step] at hs
    split at hs
    · obtain rfl := Option.some.inj hs
      exact ⟨l, h.give ‹_ ∧ _›.2⟩
    · cases hs
  | next p spurious => exact h.stepNext hfresh hs

theorem shmBlockOffset_ne_zero (i : ℕ) : shmBlockOffset i ≠ 0 := by
  simp [shmBlockOffset, sizeofNosShmHeader]

omit [DecidableEq P] in
theorem nextFree_initShmPool (offset : ℕ) : (initShmPool : ShmPool P).nextFree offset =
    if offset = shmBlockOffset (shmNumBlocks - 1) then 0 else offset + shmBlockSize := rfl

omit [DecidableEq P] in
/-- From block `i` on, the initial links lead through all the remaining blocks. -/
theorem isChain_initShmPool (n i : ℕ) (h : i + n + 1 = shmNumBlocks) :
    IndexChain.IsChain (initShmPool : ShmPool P).nextFree 0 (shmBlockOffset i)
      ((List.range' i (n + 1)).map shmBlockOffset) := by
  induction n generalizing i with
  | zero =>
    obtain rfl : i = shmNumBlocks - 1 := by omega
    refine ⟨rfl, shmBlockOffset_ne_zero _, ?_⟩
    show (initShmPool : ShmPool P).nextFree (shmBlockOffset (shmNumBlocks - 1)) = 0
    rw [nextFree_initShmPool, if_pos rfl]
  | succ n ih =>
    refine ⟨rfl, shmBlockOffset_ne_zero _, ?_⟩
    have hnext : (initShmPool : ShmPool P).nextFree (shmBlockOffset i) =
        shmBlockOffset (i + 1) := by
      have hne : shmBlockOffset i ≠ shmBlockOffset (shmNumBlocks - 1) := by
        simp only [shmBlockOffset, shmBlockSize]
        omega
      rw [nextFree_initShmPool, if_neg hne]
      simp only [shmBlockOffset, Nat.add_mul, Nat.one_mul, Nat.add_assoc]
    show IndexChain.IsChain _ 0 ((initShmPool : ShmPool P).nextFree (shmBlockOffset i)) _
    rw [hnext]
    exact ih (i + 1) (by omega)

omit [DecidableEq P] in
theorem inv_initShmPool :
    (initShmPool : ShmPool P).Inv ((List.range' 0 shmNumBlocks).map shmBlockOffset) where
  isChain := isChain_initShmPool (shmNumBlocks - 1) 0 (by decide)
  free_unheld := by simp [initShmPool]
  free_idle := by simp [initShmPool, ShmPc.busy]
  busy_unheld := by simp [initShmPool]
  busy_unique := by simp [initShmPool, ShmPc.busy]
  busy_ne_zero := by simp [initShmPool, ShmPc.busy]
  held_ne_zero := by simp [initShmPool]
  pcs _ := trivial
  counted := by simp [initShmPool]
  covered := by
    rintro blk ⟨i, hi, rfl⟩
    exact Or.inl (List.mem_map.mpr ⟨i, by simpa using hi, rfl⟩)

/-- As long as every successful pop finds the link that it has read, the pool stays sound. -/
theorem always_sound_of_linkFresh (actions : List (ShmAction P))
    (h : Guarded step LinkFresh initShmPool actions) : Always step Sound initShmPool actions :=
  always_of_guarded (I := fun s => ∃ l, s.Inv l) (fun _ _ _ ⟨_, hi⟩ ha hs => hi.step ha hs)
    (fun _ ⟨_, hi⟩ => hi.sound) ⟨_, inv_initShmPool⟩ h

/-- One process allocates a block. -/
theorem always_sound_single_alloc :
    Always step Sound (initShmPool : ShmPool ℕ)
      [.alloc 0 100, .next 0 false, .next 0 false, .next 0 false, .next 0 false,
        .next 0 false] := by
  apply always_sound_of_linkFresh
  refine .cons rfl trivial (.cons rfl ?_ (.cons rfl ?_ (.cons rfl ?_ (.cons rfl ?_
    (.cons rfl ?_ trivial)))))
  · rintro _ _ ⟨⟩
  · rintro _ _ ⟨⟩
  · rintro _ _ ⟨⟩ _ _
    rfl
  · rintro _ _ ⟨⟩
  · rintro _ _ ⟨⟩

/-- Process 1 reads the first block and its link, process 2 takes the first two blocks and gives
the first one back, and process 1 makes the block that process 2 holds the head of the list. -/
theorem not_sound_after_reuse :
    ¬ Always step Sound (initShmPool : ShmPool ℕ)
      ([.alloc 1 100, .next 1 false, .next 1 false, .alloc 2 100] ++
        List.replicate 5 (.next 2 false) ++ [.alloc 2 100] ++
        List.replicate 5 (.next 2 false) ++ [.release 2 (shmBlockOffset 0)] ++
        List.replicate 4 (.next 2 false) ++ [.next 1 false]) := by
  intro h
  obtain ⟨l, hl, hheld, -⟩ := h.last rfl
  obtain _ | ⟨b, l⟩ := l
  · cases hl
  · obtain ⟨rfl, -⟩ := hl
    exact hheld 2 _ (by decide) List.mem_cons_self

end GeminiNOS.ShmPool

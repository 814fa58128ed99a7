import GeminiNOS.Kv.ConcurrentSound

/-! # The places of the records, step by step

As long as the accesses to the free stack fit, every step of a put or a delete behind
its lookup keeps the chains sound and every other record in one place. The counter
plays no part in this.
-/

namespace GeminiNOS

open Foundations IndexChain

namespace NosKvTable

variable {table : NosKvTable} {chain : ℕ → List ℕ} {b i j : ℕ} {l₁ l₂ : List ℕ} {args : KvInsert}

theorem unchained_linkNew (hb : args.bucket < table.bucketCount) :
    (table.linkNew args i).Unchained
        (Function.update chain args.bucket (i :: chain args.bucket)) j ↔
      j ≠ i ∧ table.Unchained chain j := by
  constructor
  · rintro ⟨hj, hout⟩
    have hown := hout args.bucket hb
    rw [Function.update_self, List.mem_cons, not_or] at hown
    refine ⟨hown.1, hj, fun b' hb' => ?_⟩
    by_cases he : b' = args.bucket
    · exact he ▸ hown.2
    · have hother := hout b' hb'
      rwa [Function.update_of_ne he] at hother
  · rintro ⟨hne, hj, hout⟩
    refine ⟨hj, fun b' hb' => ?_⟩
    by_cases he : b' = args.bucket
    · subst he
      rw [Function.update_self, List.mem_cons, not_or]
      exact ⟨hne, hout _ hb'⟩
    · rw [Function.update_of_ne he]
      exact hout b' hb'

theorem Chains.unchained_detach (h : table.Chains chain) (hb : b < table.bucketCount)
    (hc : chain b = l₁ ++ i :: l₂) :
    (table.detach b (l₁.getLastD kvInvalidIdx) i).Unchained (chainDelete chain b l₁ l₂) j ↔
      j = i ∨ table.Unchained chain j := by
  have hi : i ∈ chain b := by simp [hc]
  have hmem {b'} : j ∈ chainDelete chain b l₁ l₂ b' ↔ j ∈ chain b' ∧ ¬ (j = i ∧ b' = b) :=
    mem_chainDelete hc (h.isChain hb).nodup
  unfold Unchained
  rw [capacity_detach, bucketCount_detach]
  constructor
  · rintro ⟨hj, hout⟩
    by_cases he : j = i
    · exact Or.inl he
    · exact Or.inr ⟨hj, fun b' hb' hj' => hout b' hb' (hmem.mpr ⟨hj', fun hji => he hji.1⟩)⟩
  · rintro (rfl | ⟨hj, hout⟩)
    · refine ⟨h.used_lt hb hi, fun b' hb' hj' => ?_⟩
      obtain ⟨hj', hne⟩ := hmem.mp hj'
      exact hne ⟨rfl, h.chain_eq hb' hb hj' hi⟩
    · exact ⟨hj, fun b' hb' hj' => hout b' hb' (hmem.mp hj').1⟩

@[simp] theorem freeStack_detach : (table.detach b i j).freeStack = table.freeStack := by
  unfold detach unlink
  split <;> rfl

@[simp] theorem freeTop_detach : (table.detach b i j).freeTop = table.freeTop := by
  unfold detach unlink
  split <;> rfl

@[simp] theorem usedCount_detach : (table.detach b i j).usedCount = table.usedCount := by
  unfold detach unlink
  split <;> rfl

theorem delete_eq : table.delete b i j =
    { table.detach b i j with
      freeTop := table.freeTop + 1
      freeStack := Function.update table.freeStack (table.freeTop + 1).toNat j
      usedCount := countedFrom table.usedCount false } := by
  unfold delete detach unlink
  split <;> simp [reclaim, setSubList, setEntry, countedFrom]

end NosKvTable

namespace KvShared

variable {P : Type*} {s s' : KvShared P} {chain : ℕ → List ℕ} {p : P} {pc : KvPc}
  {args : KvInsert} {b i : ℕ} {l₁ l₂ : List ℕ} {val : Option Bytes} {valLen : ℕ}
  {subList : List NosKvSub} {lockOwner : ℕ → Option P}

/-- The locks and the places of the records together. -/
structure Placed (s : KvShared P) (chain : ℕ → List ℕ) : Prop where
  locked : s.Locked chain
  owned : s.Owned chain

/-- A position of the free stack is passed only when it can be: the top is as it was read, and not
negative before a pop, and nobody else has still to access the position. -/
def StackFits (s : KvShared P) (p : P) : Prop :=
  match s.pc p with
  | .popStore _ top => s.table.freeTop = top ∧ 0 ≤ top ∧ ∀ q, (s.pc q).pushing ≠ some top
  | .pushStore _ _ top => s.table.freeTop = top ∧ ∀ q, (s.pc q).popping ≠ some (top + 1)
  | _ => True

theorem Fits.stack (h : s.Fits (.next p)) : s.StackFits p := by
  unfold Fits at h
  unfold StackFits
  cases hpc : s.pc p <;> simp only [hpc] at h ⊢ <;> exact h

namespace Placed

theorem init {table : NosKvTable} (h : table.Inv chain) :
    (KvShared.init table : KvShared P).Placed chain := by
  constructor
  · refine ⟨⟨table.freeStack, table.freeTop, table.usedCount, h⟩, fun p => ?_⟩
    constructor <;> rintro _ ⟨⟩
  · refine ⟨⟨?_, ?_, ?_⟩, h.top_ge, fun p => .of_none rfl rfl, ?_⟩
    · rintro (k | p) i hat
      · obtain ⟨hk, -, rfl⟩ := hat
        exact ⟨h.free_lt k hk, fun b hb => h.free_unused k hk b hb⟩
      · cases hat
    · rintro i ⟨hi, hout⟩
      obtain ⟨k, hk, rfl⟩ := (h.cover i hi).resolve_left fun ⟨b, hb, hmem⟩ => hout b hb hmem
      exact ⟨.free k, hk, fun q => by simp [KvShared.init, KvPc.pushing], rfl⟩
    · rintro (k | p) (l | q) i hat hat'
      · rw [h.free_inj k l hat.1 hat'.1 (hat.2.2.trans hat'.2.2.symm)]
      · cases hat'
      · cases hat
      · cases hat
    · rintro p q pos ⟨⟩

theorem overwrite (h : s.Placed chain) (hb : b < s.table.bucketCount) (hi : i ∈ chain b)
    (hv : valLen ≤ s.table.maxValSize) :
    Placed { s with table := s.table.overwrite i val valLen } chain := by
  constructor
  · exact h.locked.overwrite hb hi hv
  · exact ⟨h.owned.places, h.owned.top_ge, h.owned.stands, h.owned.push_unique⟩

theorem unchained_fill (h : s.Placed chain) (hpc : s.pc p = .fill args i) :
    s.table.Unchained chain i := by
  have hhas : s.At (.thread p) i := by simp [At, hpc, NosKvTable.carried]
  exact h.owned.places.valid _ _ hhas

variable [DecidableEq P]

theorem go (h : s.Placed chain) {old : KvPc} (hpc : s.pc p = old)
    (hbucket : pc.bucket = old.bucket)
    (hins : ∀ args, pc.inserting = some args → old.inserting = some args)
    (hcar : s.table.carried pc = s.table.carried old) (hpop : pc.popping = none)
    (hpush : pc.pushing = none) (hold : old.pushing = none) : (s.setPc p pc).Placed chain := by
  subst hpc
  constructor
  · exact h.locked.go s.table.freeStack s.table.freeTop s.table.usedCount hbucket hins
  · exact h.owned.go rfl rfl (fun _ => Iff.rfl) hcar hpop hpush hold

theorem popStore (h : s.Placed chain) {top : ℤ} (hpc : s.pc p = .popStore args top)
    (hfit : s.StackFits p) :
    (s.setTable p { s.table with freeTop := top - 1 } (.popSlot args top)).Placed chain := by
  simp only [StackFits, hpc] at hfit
  obtain ⟨htop, hpos, hwritten⟩ := hfit
  constructor
  · apply h.locked.go s.table.freeStack (top - 1) s.table.usedCount
    · rw [hpc]
      rfl
    · rw [hpc]
      exact fun _ ha => ha
  · exact h.owned.popStore hpc htop hpos hwritten

theorem pushStore (h : s.Placed chain) {top : ℤ} (hpc : s.pc p = .pushStore b i top)
    (hfit : s.StackFits p) :
    (s.setTable p { s.table with freeTop := top + 1 } (.pushSlot b i (top + 1))).Placed chain := by
  simp only [StackFits, hpc] at hfit
  obtain ⟨htop, hread⟩ := hfit
  constructor
  · apply h.locked.go s.table.freeStack (top + 1) s.table.usedCount
    · rw [hpc]
      rfl
    · rintro _ ⟨⟩
  · exact h.owned.pushStore hpc htop hread

theorem pushSlot (h : s.Placed chain) {pos : ℤ} (hpc : s.pc p = .pushSlot b i pos) :
    (s.setTable p
      { s.table with freeStack := Function.update s.table.freeStack pos.toNat i }
      (.countLoad b false)).Placed chain := by
  constructor
  · apply h.locked.go _ s.table.freeTop s.table.usedCount
    · rw [hpc]
      rfl
    · rintro _ ⟨⟩
  · exact h.owned.pushSlot hpc

theorem fill (h : s.Placed chain) (hpc : s.pc p = .fill args i) :
    (s.setTable p (s.table.linkNew args i) (.countLoad args.bucket true)).Placed
      (Function.update chain args.bucket (i :: chain args.bucket)) := by
  have hb : args.bucket < s.table.bucketCount := (h.locked.holds p).bucket_lt _ (by rw [hpc]; rfl)
  constructor
  · exact h.locked.fill hpc (h.unchained_fill hpc)
  · exact h.owned.fill hpc rfl rfl fun j => NosKvTable.unchained_linkNew hb

theorem countStore (h : s.Placed chain) {inserted : Bool} {usedCount n : ℕ}
    (hpc : s.pc p = .countStore b inserted usedCount) :
    (s.setTable p { s.table with usedCount := n } (.unlock b)).Placed chain := by
  constructor
  · apply h.locked.go s.table.freeStack s.table.freeTop n
    · rw [hpc]
      rfl
    · rintro _ ⟨⟩
  · refine h.owned.go rfl rfl (fun _ => Iff.rfl) ?_ rfl rfl ?_
    · rw [hpc]
      rfl
    · rw [hpc]
      rfl

theorem release (h : s.Placed chain) (hpc : s.pc p = .unlock b) : (s.release p b).Placed chain := by
  constructor
  · exact h.locked.release hpc
  · refine h.owned.go rfl rfl (fun _ => Iff.rfl) ?_ rfl rfl ?_
    · rw [hpc]
      rfl
    · rw [hpc]
      rfl

theorem enterPut (h : s.Placed chain) (hidle : s.pc p = .idle)
    (hfree : s.lockOwner args.bucket = none) (hargs : Insertable s.table chain args) :
    (s.lock p args.bucket s.table (.checkTop args)).Placed chain := by
  constructor
  · exact h.locked.enterPut hfree hargs
  · show Owned ⟨s.table, _, Function.update s.pc p (.checkTop args)⟩ chain
    refine h.owned.go rfl rfl (fun _ => Iff.rfl) ?_ rfl rfl ?_
    · rw [hidle]
      rfl
    · rw [hidle]
      rfl

theorem enterDel (h : s.Placed chain) (hidle : s.pc p = .idle) (hfree : s.lockOwner b = none)
    (hb : b < s.table.bucketCount) (hc : chain b = l₁ ++ i :: l₂) :
    (s.lock p b (s.table.detach b (l₁.getLastD kvInvalidIdx) i) (.pushLoad b i)).Placed
      (NosKvTable.chainDelete chain b l₁ l₂) := by
  constructor
  · exact h.locked.enterDel hfree hb hc
  · refine h.owned.enterDel hidle NosKvTable.freeStack_detach NosKvTable.freeTop_detach ?_
      fun j => h.locked.chains.unchained_detach hb hc
    exact fun hout => hout.2 b hb (by simp [hc])

end Placed

end KvShared

end GeminiNOS

import GeminiNOS.Buffer.ChunkRanges
import GeminiNOS.Buffer.PoolSound

/-! # First fit and best fit

An allocation takes a chunk from the first bin that serves it, in the order of the
configuration. In every state of a pool this is a smallest bin that does exactly if the bins
that have chunks are configured in ascending order: otherwise the bins before a larger one
can be used up.
-/

namespace GeminiNOS

open Foundations

/-- The buffer of a call is a chunk of the pool. -/
def NosBufferPool.Call.Exists (pool : NosBufferPool) : NosBufferPool.Call → Prop
  | .alloc _ _ => True
  | .retain r | .release r | .push r _ | .pull r _ =>
    ∃ bin ∈ pool[r.binIdx]?, r.poolIdx < bin.chunkCount

instance (pool : NosBufferPool) (call : NosBufferPool.Call) : Decidable (call.Exists pool) := by
  cases call <;> unfold NosBufferPool.Call.Exists <;> infer_instance

namespace NosBufferPool

def liveStep (pool : NosBufferPool) (call : Call) : Option NosBufferPool :=
  if call.Exists pool then pool.step call else none

/-- An allocation fails exactly if no bin serves it, and takes a chunk from a smallest one that
does. -/
def BestFit (pool : NosBufferPool) : Prop :=
  ∀ size headroom, size + headroom < 2 ^ 32 →
    (pool.nosBufferAlloc size headroom = none ↔ ∀ bin ∈ pool, ¬ bin.Serves (size + headroom)) ∧
    ∀ pool' r, pool.nosBufferAlloc size headroom = some (pool', r) →
      ∃ bin, pool[r.binIdx]? = some bin ∧ bin.Serves (size + headroom) ∧ r.poolIdx = bin.topIdx ∧
        ∀ bin' ∈ pool, bin'.Serves (size + headroom) → bin.chunkSize ≤ bin'.chunkSize

/-- Bins with chunks stand in ascending order of their sizes. -/
def Ascending (pool : NosBufferPool) : Prop :=
  pool.Pairwise fun bin bin' =>
    0 < bin.chunkCount → 0 < bin'.chunkCount → bin.chunkSize ≤ bin'.chunkSize

/-- The descriptors of every bin know it, and a bin with a free chunk has chunks. -/
def Stocked (pool : NosBufferPool) : Prop :=
  ∀ (i : ℕ) (bin : NosBufferBin), pool[i]? = some bin →
    (∀ j, (bin.buffers j).binIdx = i) ∧ (0 ≤ bin.freeTop → 0 < bin.chunkCount)

variable {pool pool' : NosBufferPool} {bin bin' : NosBufferBin} {buf buf' : NosBuffer}
  {r : BufferRef} {size headroom i j k : ℕ} {config : List (ℕ × ℕ)}
  {f : NosBufferBin → NosBufferBin}

theorem allocFrom_first (ha : allocFrom size headroom pool i = some (pool', r)) :
    (∃ bin, i ≤ r.binIdx ∧ pool[r.binIdx - i]? = some bin ∧
      bin.Serves (u32 (size + headroom))) ∧
      ∀ (k : ℕ) (bin : NosBufferBin), pool[k]? = some bin → i + k < r.binIdx →
        ¬ bin.Serves (u32 (size + headroom)) := by
  induction pool generalizing i pool' with
  | nil => cases ha
  | cons bin bins ih =>
    rw [allocFrom] at ha
    split at ha
    · rename_i hserves
      simp only [Option.some.injEq, Prod.mk.injEq] at ha
      obtain ⟨rfl, rfl⟩ := ha
      refine ⟨⟨bin, le_rfl, by simp, hserves⟩, fun k bin' _ hk => ?_⟩
      dsimp only at hk
      omega
    · rename_i hserves
      obtain ⟨⟨bins', r'⟩, ha', he⟩ := Option.map_eq_some_iff.mp ha
      simp only [Prod.mk.injEq] at he
      obtain ⟨rfl, rfl⟩ := he
      obtain ⟨⟨bin', hi, hget, hserves'⟩, hfirst⟩ := ih ha'
      have hk : r'.binIdx - i = r'.binIdx - (i + 1) + 1 := by omega
      refine ⟨⟨bin', by omega, by rwa [hk, List.getElem?_cons_succ], hserves'⟩, ?_⟩
      rintro (_ | k) bin'' hbin hlt
      · rw [List.getElem?_cons_zero] at hbin
        obtain rfl := Option.some.inj hbin
        exact hserves
      · exact hfirst k bin'' hbin (by omega)

theorem nosBufferAlloc_eq (h : size + headroom < 2 ^ 32) :
    pool.nosBufferAlloc size headroom = allocFrom size headroom pool 0 := by
  rw [nosBufferAlloc, u32, u32, Nat.mod_eq_of_lt (by omega), Nat.mod_eq_of_lt (by omega)]

theorem nosBufferAlloc_eq_none (h : size + headroom < 2 ^ 32) :
    pool.nosBufferAlloc size headroom = none ↔ ∀ bin ∈ pool, ¬ bin.Serves (size + headroom) := by
  rw [nosBufferAlloc_eq h, allocFrom_eq_none, u32, Nat.mod_eq_of_lt h]

theorem nosBufferAlloc_first (h : size + headroom < 2 ^ 32)
    (ha : pool.nosBufferAlloc size headroom = some (pool', r)) :
    (∃ bin, pool[r.binIdx]? = some bin ∧ bin.Serves (size + headroom)) ∧
      ∀ (k : ℕ) (bin : NosBufferBin), pool[k]? = some bin → k < r.binIdx →
        ¬ bin.Serves (size + headroom) := by
  rw [nosBufferAlloc_eq h] at ha
  obtain ⟨⟨bin, -, hbin, hserves⟩, hfirst⟩ := allocFrom_first ha
  rw [u32, Nat.mod_eq_of_lt h] at hserves hfirst
  refine ⟨⟨bin, hbin, hserves⟩, fun k bin' hbin' hk => ?_⟩
  exact hfirst k bin' hbin' (by omega)

theorem Stocked.modify (h : pool.Stocked)
    (hf : ∀ bin, pool[k]? = some bin → (∀ j, (bin.buffers j).binIdx = k) →
      (0 ≤ bin.freeTop → 0 < bin.chunkCount) →
        (∀ j, ((f bin).buffers j).binIdx = k) ∧ (0 ≤ (f bin).freeTop → 0 < (f bin).chunkCount)) :
    Stocked (pool.modify k f) := by
  intro i bin' hbin'
  rcases getElem?_modify_cases hbin' with ⟨bin, rfl, hbin, rfl⟩ | ⟨-, hbin⟩
  · exact hf bin hbin (h _ bin hbin).1 (h _ bin hbin).2
  · exact h i bin' hbin

theorem binIdx_setBuffer (h : ∀ j, (bin.buffers j).binIdx = i) (hbuf : buf.binIdx = i) (k : ℕ) :
    ((bin.setBuffer j buf).buffers k).binIdx = i := by
  show (Function.update bin.buffers j buf k).binIdx = i
  rw [Function.update_apply]
  split
  · exact hbuf
  · exact h k

theorem Stocked.binIdx_eq (h : pool.Stocked) (hb : pool.buffer? r = some buf) :
    buf.binIdx = r.binIdx := by
  obtain ⟨bin, hbin, rfl⟩ := Option.map_eq_some_iff.mp hb
  exact (h _ bin hbin).1 r.poolIdx

theorem Stocked.setBuffer (h : pool.Stocked) (hb : pool.buffer? r = some buf)
    (hbuf : buf'.binIdx = buf.binIdx) : (pool.setBuffer r buf').Stocked :=
  h.modify fun _ _ haddr hstock =>
    ⟨binIdx_setBuffer haddr (hbuf.trans (h.binIdx_eq hb)), hstock⟩

theorem Stocked.step {call : Call} (h : pool.Stocked) (hexists : call.Exists pool)
    (hs : pool.step call = some pool') : pool'.Stocked := by
  cases call with
  | alloc size headroom =>
    obtain rfl := Option.some.inj hs
    cases ha : pool.nosBufferAlloc size headroom with
    | none => exact h
    | some result =>
      obtain ⟨bin, hbin, htop, -, hpool⟩ := alloc_eq_modify ha
      show result.1.Stocked
      rw [hpool]
      refine h.modify fun bin' hbin' haddr hstock => ⟨binIdx_setBuffer haddr (haddr _), fun _ => ?_⟩
      obtain rfl := Option.some.inj (hbin.symm.trans hbin')
      exact hstock htop
  | retain r =>
    obtain ⟨buf, hb, rfl⟩ := Option.map_eq_some_iff.mp hs
    exact h.setBuffer hb rfl
  | release r =>
    obtain ⟨buf, hb, rfl⟩ := Option.map_eq_some_iff.mp hs
    split
    · refine Stocked.modify ?_ fun bin hbin haddr _ => ⟨haddr, fun _ => ?_⟩
      · exact h.setBuffer hb rfl
      · obtain ⟨bin₀, hbin₀, hlt⟩ := hexists
        rw [h.binIdx_eq hb, NosBufferPool.setBuffer, getElem?_modify_self hbin₀] at hbin
        obtain rfl := Option.some.inj hbin
        exact Nat.zero_lt_of_lt hlt
    · exact h.setBuffer hb rfl
  | push r size =>
    obtain ⟨buf, hb, rfl⟩ := Option.map_eq_some_iff.mp hs
    split
    · exact h
    · exact h.setBuffer hb rfl
  | pull r size =>
    obtain ⟨buf, hb, rfl⟩ := Option.map_eq_some_iff.mp hs
    split
    · exact h
    · exact h.setBuffer hb rfl

theorem stocked_makeBins (config : List (ℕ × ℕ)) : (makeBins config 0).Stocked := by
  intro i bin hbin
  obtain ⟨chunkSize, chunkCount, -, -, rfl⟩ := getElem?_makeBins hbin
  refine ⟨fun j => Nat.zero_add i, fun htop => ?_⟩
  have hcount : (0 : ℤ) ≤ chunkCount - 1 := htop
  show 0 < chunkCount
  omega

theorem Ascending.bestFit (h : pool.Ascending) (hstock : pool.Stocked) : pool.BestFit := by
  intro size headroom hsum
  refine ⟨nosBufferAlloc_eq_none hsum, fun pool' r ha => ?_⟩
  obtain ⟨⟨bin, hbin, hserves⟩, hfirst⟩ := nosBufferAlloc_first hsum ha
  obtain ⟨bin', hbin', -, hidx, -⟩ := alloc_eq_modify ha
  obtain rfl := Option.some.inj (hbin.symm.trans hbin')
  refine ⟨bin, hbin, hserves, hidx, fun bin' hmem hserves' => ?_⟩
  obtain ⟨k, hk⟩ := List.mem_iff_getElem?.mp hmem
  rcases lt_trichotomy k r.binIdx with hlt | rfl | hgt
  · exact absurd hserves' (hfirst k bin' hk hlt)
  · rw [Option.some.inj (hbin.symm.trans hk)]
  · obtain ⟨hlt, hget⟩ := List.getElem?_eq_some_iff.mp hbin
    obtain ⟨hlt', hget'⟩ := List.getElem?_eq_some_iff.mp hk
    have hle := List.pairwise_iff_getElem.mp h r.binIdx k hlt hlt' hgt
    rw [hget, hget'] at hle
    exact hle ((hstock _ bin hbin).2 hserves.2) ((hstock _ bin' hk).2 hserves'.2)

theorem ascending_congr (h : pool'.layouts = pool.layouts) : pool'.Ascending ↔ pool.Ascending := by
  have hlayouts : ∀ pool : NosBufferPool, pool.Ascending ↔ pool.layouts.Pairwise fun l l' =>
      0 < l.chunkCount → 0 < l'.chunkCount → l.chunkSize ≤ l'.chunkSize := fun pool => by
    rw [layouts, List.pairwise_map]
    rfl
  rw [hlayouts, hlayouts, h]

/-- The number of free chunks in the bins before one. -/
def freeBefore (pool : NosBufferPool) (i : ℕ) : ℕ :=
  ((pool.take i).map fun bin => (bin.freeTop + 1).toNat).sum

theorem sum_modify_lt {α : Type*} {l : List α} {w : α → ℕ} {g : α → α} {a : α}
    (ha : l[k]? = some a) (hlt : w (g a) < w a) : ((l.modify k g).map w).sum < (l.map w).sum := by
  induction l generalizing k with
  | nil => cases ha
  | cons b l ih =>
    cases k with
    | zero =>
      obtain rfl := Option.some.inj ha
      simpa using hlt
    | succ k => simpa using ih ha

theorem freeBefore_take_lt (hbin : pool[k]? = some bin) (hk : k < i) (htop : 0 ≤ bin.freeTop) :
    freeBefore (pool.modify k fun bin => bin.take size headroom) i < pool.freeBefore i := by
  rw [freeBefore, freeBefore, List.take_modify]
  have hget : (pool.take i)[k]? = some bin := by rw [List.getElem?_take_of_lt hk, hbin]
  refine sum_modify_lt hget ?_
  show (bin.freeTop - 1 + 1).toNat < (bin.freeTop + 1).toNat
  omega

/-- A larger bin before a smaller one: requests of the smaller size use up the bins before the
larger one, and then get a chunk of it. -/
theorem not_bestFit_of_inversion (hbest : ∀ pool', Run.Reachable liveStep pool pool' →
      pool'.BestFit) (hij : i < j) (hi : pool[i]? = some bin) (hj : pool[j]? = some bin')
    (htop : 0 ≤ bin.freeTop) (htop' : 0 ≤ bin'.freeTop) (hlt : bin'.chunkSize < bin.chunkSize)
    (hword : bin'.chunkSize < 2 ^ 32) : False := by
  induction hn : pool.freeBefore i using Nat.strongRecOn generalizing pool with
  | ind n ih =>
    have hserves' : bin'.Serves (bin'.chunkSize + 0) := ⟨le_rfl, htop'⟩
    have hserves : bin.Serves (bin'.chunkSize + 0) := ⟨hlt.le, htop⟩
    obtain ⟨hfails, hfit⟩ := hbest pool (Run.Reachable.refl pool) bin'.chunkSize 0 hword
    cases ha : pool.nosBufferAlloc bin'.chunkSize 0 with
    | none => exact hfails.mp ha bin' (List.mem_of_getElem? hj) hserves'
    | some result =>
      obtain ⟨pool', r⟩ := result
      obtain ⟨bin'', hbin'', -, -, hmin⟩ := hfit pool' r ha
      have hle := hmin bin' (List.mem_of_getElem? hj) hserves'
      have hfirst : r.binIdx ≤ i := by
        by_contra hgt
        exact (nosBufferAlloc_first hword ha).2 i bin hi (Nat.not_le.mp hgt) hserves
      have hne : r.binIdx ≠ i := by
        intro he
        rw [he, hi] at hbin''
        obtain rfl := Option.some.inj hbin''
        omega
      obtain ⟨bin₁, hbin₁, htop₁, -, rfl⟩ := alloc_eq_modify ha
      have hstep : liveStep pool (.alloc bin'.chunkSize 0) =
          some (pool.modify r.binIdx fun bin => bin.take (u32 bin'.chunkSize) (u32 0)) := by
        have hexists : (Call.alloc bin'.chunkSize 0).Exists pool := trivial
        rw [liveStep, if_pos hexists, step, ha]
        rfl
      have hfewer : freeBefore (pool.modify r.binIdx fun bin =>
          bin.take (u32 bin'.chunkSize) (u32 0)) i < pool.freeBefore i :=
        freeBefore_take_lt hbin₁ (by omega) htop₁
      refine ih _ (hn ▸ hfewer) ?_ ?_ ?_ rfl
      · exact fun pool' hreach => hbest pool' ((Run.Reachable.single hstep).trans hreach)
      · rwa [getElem?_modify_of_ne (Ne.symm hne)]
      · rwa [getElem?_modify_of_ne (by omega)]

/-- In every state of a pool an allocation is a best fit if and only if the bins that have chunks
are configured in ascending order. -/
theorem bestFit_iff_ascending (config : List (ℕ × ℕ)) :
    (∀ pool, Run.Reachable liveStep (nosBufferInitPool [] config) pool → pool.BestFit) ↔
      (nosBufferInitPool [] config).Ascending := by
  constructor
  · intro hbest
    refine List.pairwise_iff_getElem.mpr fun i j hi hj hij hcount hcount' => ?_
    by_contra hgt
    have hbin := List.getElem?_eq_getElem hi
    have hbin' := List.getElem?_eq_getElem hj
    obtain ⟨_, chunkCount, -, -, hmake⟩ := getElem?_makeBins hbin
    obtain ⟨_, chunkCount', -, -, hmake'⟩ := getElem?_makeBins hbin'
    refine not_bestFit_of_inversion hbest hij hbin hbin' ?_ ?_ (Nat.not_le.mp hgt) ?_
    · rw [hmake] at hcount ⊢
      exact Int.sub_nonneg_of_le (Int.ofNat_le.mpr hcount)
    · rw [hmake'] at hcount' ⊢
      exact Int.sub_nonneg_of_le (Int.ofNat_le.mpr hcount')
    · exact (sized_makeBins config 0 _ (List.mem_of_getElem? hbin')).chunkSize_lt
  · rintro h pool ⟨calls, hrun⟩
    have hinv : pool.layouts = (nosBufferInitPool [] config).layouts ∧ pool.Stocked := by
      refine Run.exec_invariant (I := fun pool => pool.layouts =
        (nosBufferInitPool [] config).layouts ∧ pool.Stocked) ?_ ⟨rfl, stocked_makeBins config⟩ hrun
      rintro s call s' ⟨hlayouts, hstock⟩ hs
      rw [liveStep] at hs
      split at hs
      · exact ⟨(layouts_step hs).trans hlayouts, hstock.step ‹_› hs⟩
      · cases hs
    exact ((ascending_congr hinv.1).mpr h).bestFit hinv.2

/-- With a bin of 128 bytes before one of 64, a request of 32 bytes takes a chunk of 128. -/
theorem not_bestFit_descending :
    ¬ ∀ pool, Run.Reachable liveStep (nosBufferInitPool [] [(128, 4), (64, 4)]) pool →
      pool.BestFit := by
  intro h
  obtain ⟨-, hfit⟩ := h _ (Run.Reachable.refl _) 32 0 (by decide)
  obtain ⟨bin, hbin, -, -, hmin⟩ := hfit _ _ rfl
  obtain rfl := Option.some.inj hbin
  exact absurd (hmin _ (List.mem_cons_of_mem _ List.mem_cons_self) (by decide)) (by decide)

end NosBufferPool

end GeminiNOS

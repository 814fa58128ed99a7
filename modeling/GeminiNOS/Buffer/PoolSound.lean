import GeminiNOS.Buffer.Holders

/-! # Bins of the buffer pool

Every chunk of a bin is on its free stack or in use, and a pool is right when its bins
are. What an allocation, an atomic addition to a count and the end of a release do to
the chunks in use and to their counts.
-/

namespace GeminiNOS

open Foundations References

namespace NosBufferBin

variable {bin : NosBufferBin} {i j m size headroom : ℕ} {d : ℤ}

/-- The stack and the counters of a bin agree, its descriptors know their address, and the largest
number of used chunks has been noted. -/
structure Ok (bin : NosBufferBin) (i m : ℕ) : Prop where
  addr : ∀ j, (bin.buffers j).binIdx = i ∧ (bin.buffers j).poolIdx = j
  count_lt : bin.chunkCount < 2 ^ 32
  top_ge : -1 ≤ bin.freeTop
  free_lt : ∀ j ∈ bin.freeList, j < bin.chunkCount
  nodup : bin.freeList.Nodup
  used_eq : (bin.usedCount : ℤ) = bin.chunkCount - (bin.freeTop + 1)
  peak_eq : bin.peakCount = m
  used_le : bin.usedCount ≤ m

theorem Ok.top_lt (h : bin.Ok i m) : bin.freeTop + 1 ≤ bin.chunkCount :=
  IndexStack.top_lt h.top_ge h.nodup h.free_lt

theorem freeList_take (size headroom : ℕ) (h : 0 ≤ bin.freeTop) :
    bin.freeList = (bin.take size headroom).freeList ++ [bin.topIdx] :=
  IndexStack.entries_pop h

theorem freeList_giveBack (h : -1 ≤ bin.freeTop) :
    (bin.giveBack j).freeList = bin.freeList ++ [j] :=
  IndexStack.entries_push h

theorem Ok.topIdx_mem (_h : bin.Ok i m) (htop : 0 ≤ bin.freeTop) : bin.topIdx ∈ bin.freeList := by
  rw [freeList_take 0 0 htop]
  exact List.mem_append_right _ (List.mem_singleton_self _)

theorem addr_setBuffer {buf : NosBuffer} (h : ∀ j, (bin.buffers j).binIdx = i ∧
    (bin.buffers j).poolIdx = j) (hbuf : buf.binIdx = i ∧ buf.poolIdx = j) (k : ℕ) :
    ((bin.setBuffer j buf).buffers k).binIdx = i ∧
      ((bin.setBuffer j buf).buffers k).poolIdx = k := by
  show (Function.update bin.buffers j buf k).binIdx = i ∧
    (Function.update bin.buffers j buf k).poolIdx = k
  rw [Function.update_apply]
  split
  · rwa [‹k = j›]
  · exact h k

theorem Ok.setBuffer (h : bin.Ok i m) {buf : NosBuffer}
    (hbuf : buf.binIdx = i ∧ buf.poolIdx = j) : (bin.setBuffer j buf).Ok i m where
  addr := addr_setBuffer h.addr hbuf
  count_lt := h.count_lt
  top_ge := h.top_ge
  free_lt := h.free_lt
  nodup := h.nodup
  used_eq := h.used_eq
  peak_eq := h.peak_eq
  used_le := h.used_le

theorem Ok.fetchAdd (h : bin.Ok i m) : (bin.fetchAdd j d).Ok i m := h.setBuffer (h.addr j)

theorem Ok.reset (h : bin.Ok i m) : (bin.reset j).Ok i m := h.setBuffer (h.addr j)

theorem Ok.mono (h : bin.Ok i m) : bin.Ok i (max m bin.usedCount) := by
  rwa [Nat.max_eq_left h.used_le]

theorem Ok.usedCount_take (h : bin.Ok i m) (htop : 0 ≤ bin.freeTop) :
    (bin.take size headroom).usedCount = bin.usedCount + 1 := by
  have hused := h.used_eq
  have hlt := h.count_lt
  exact Nat.mod_eq_of_lt (by omega)

theorem Ok.take (h : bin.Ok i m) (htop : 0 ≤ bin.freeTop) :
    (bin.take size headroom).Ok i (max m (bin.take size headroom).usedCount) := by
  have hlist := freeList_take size headroom htop
  have hnodup := h.nodup
  rw [hlist] at hnodup
  constructor
  · exact addr_setBuffer h.addr (h.addr bin.topIdx)
  · exact h.count_lt
  · show -1 ≤ bin.freeTop - 1
    omega
  · intro j hj
    exact h.free_lt j (hlist ▸ List.mem_append_left _ hj)
  · exact (List.nodup_append.mp hnodup).1
  · have hused := h.used_eq
    rw [h.usedCount_take htop]
    show ((bin.usedCount + 1 : ℕ) : ℤ) = bin.chunkCount - (bin.freeTop - 1 + 1)
    omega
  · show (if bin.peakCount < (bin.take size headroom).usedCount then
      (bin.take size headroom).usedCount else bin.peakCount) = _
    rw [h.peak_eq]
    split <;> omega
  · exact Nat.le_max_right ..

theorem Ok.giveBack (h : bin.Ok i m) (hj : j < bin.chunkCount) (hfree : j ∉ bin.freeList) :
    (bin.giveBack j).Ok i m := by
  have hge := h.top_ge
  have hlist := freeList_giveBack (j := j) hge
  have htop_ge : -1 ≤ (bin.giveBack j).freeTop := by
    show -1 ≤ bin.freeTop + 1
    omega
  have hnodup : (bin.giveBack j).freeList.Nodup := by
    rw [hlist]
    refine List.nodup_append.mpr ⟨h.nodup, by simp, fun a ha b hb hab => ?_⟩
    exact hfree (List.mem_singleton.mp hb ▸ hab ▸ ha)
  have hlt : ∀ k ∈ (bin.giveBack j).freeList, k < bin.chunkCount := by
    intro k hk
    rw [hlist] at hk
    rcases List.mem_append.mp hk with hk | hk
    · exact h.free_lt k hk
    · exact List.mem_singleton.mp hk ▸ hj
  have htop : bin.freeTop + 1 + 1 ≤ bin.chunkCount := IndexStack.top_lt htop_ge hnodup hlt
  have hused := h.used_eq
  have hle := h.used_le
  have hcount := h.count_lt
  have hused' : (bin.giveBack j).usedCount + 1 = bin.usedCount := by
    show (bin.usedCount + (2 ^ 32 - 1)) % 2 ^ 32 + 1 = bin.usedCount
    omega
  constructor
  · exact h.addr
  · exact h.count_lt
  · exact htop_ge
  · exact hlt
  · exact hnodup
  · show ((bin.giveBack j).usedCount : ℤ) = bin.chunkCount - (bin.freeTop + 1 + 1)
    omega
  · exact h.peak_eq
  · omega

theorem Ok.make {chunkSize chunkCount : ℕ} (h : chunkCount < 2 ^ 32) :
    (make i chunkSize chunkCount).Ok i 0 := by
  have hlist : (NosBufferBin.make i chunkSize chunkCount).freeList = List.range chunkCount := by
    show List.map (fun j => j) (List.range ((chunkCount : ℤ) - 1 + 1).toNat) = _
    rw [List.map_id', show ((chunkCount : ℤ) - 1 + 1).toNat = chunkCount by omega]
  constructor
  · exact fun j => ⟨rfl, rfl⟩
  · exact h
  · show -1 ≤ (chunkCount : ℤ) - 1
    omega
  · intro j hj
    rw [hlist] at hj
    exact List.mem_range.mp hj
  · rw [hlist]
    exact List.nodup_range
  · show ((0 : ℕ) : ℤ) = chunkCount - ((chunkCount : ℤ) - 1 + 1)
    omega
  · rfl
  · exact le_rfl

end NosBufferBin

namespace NosBufferPool

variable {pool pool' : NosBufferPool} {bin bin' : NosBufferBin} {r r' : BufferRef}
  {size headroom i k : ℕ} {f : NosBufferBin → NosBufferBin} {m : ℕ → ℕ}

def Ok (pool : NosBufferPool) (m : ℕ → ℕ) : Prop :=
  ∀ (i : ℕ) (bin : NosBufferBin), pool[i]? = some bin → bin.Ok i (m i)

/-- The chunk exists and is not on the free stack of its bin. -/
def InUse (pool : NosBufferPool) (r : BufferRef) : Prop :=
  ∃ bin, pool[r.binIdx]? = some bin ∧ r.poolIdx < bin.chunkCount ∧ r.poolIdx ∉ bin.freeList

theorem getElem?_modify_cases (h : (pool.modify k f)[i]? = some bin') :
    (∃ bin, i = k ∧ pool[k]? = some bin ∧ bin' = f bin) ∨ i ≠ k ∧ pool[i]? = some bin' := by
  rw [List.getElem?_modify] at h
  obtain ⟨bin, hbin, rfl⟩ := Option.map_eq_some_iff.mp h
  split
  · obtain rfl := ‹k = i›
    exact .inl ⟨bin, rfl, hbin, rfl⟩
  · exact .inr ⟨Ne.symm ‹_›, hbin⟩

theorem getElem?_modify_self (h : pool[k]? = some bin) :
    (pool.modify k f)[k]? = some (f bin) := by
  simp [h]

theorem getElem?_modify_of_ne (h : i ≠ k) : (pool.modify k f)[i]? = pool[i]? := by
  simp [Ne.symm h]

theorem allocFrom_eq_modify (ha : allocFrom size headroom pool i = some (pool', r)) :
    ∃ bin, i ≤ r.binIdx ∧ pool[r.binIdx - i]? = some bin ∧ 0 ≤ bin.freeTop ∧
      r.poolIdx = bin.topIdx ∧
      pool' = pool.modify (r.binIdx - i) fun bin => bin.take size headroom := by
  induction pool generalizing i pool' with
  | nil => simp [allocFrom] at ha
  | cons bin bins ih =>
    rw [allocFrom] at ha
    split at ha
    · rename_i hserves
      simp only [Option.some.injEq, Prod.mk.injEq] at ha
      obtain ⟨rfl, rfl⟩ := ha
      exact ⟨bin, le_rfl, by simp, hserves.2, rfl, by simp⟩
    · obtain ⟨⟨bins', r'⟩, ha', he⟩ := Option.map_eq_some_iff.mp ha
      simp only [Prod.mk.injEq] at he
      obtain ⟨rfl, rfl⟩ := he
      obtain ⟨bin', hi, hget, htop, hidx, rfl⟩ := ih ha'
      have hk : r'.binIdx - i = r'.binIdx - (i + 1) + 1 := by omega
      refine ⟨bin', by omega, ?_, htop, hidx, ?_⟩
      · rw [hk, List.getElem?_cons_succ]
        exact hget
      · rw [hk, List.modify_succ_cons]

theorem alloc_eq_modify (ha : pool.nosBufferAlloc size headroom = some (pool', r)) :
    ∃ bin, pool[r.binIdx]? = some bin ∧ 0 ≤ bin.freeTop ∧ r.poolIdx = bin.topIdx ∧
      pool' = pool.modify r.binIdx fun bin => bin.take (u32 size) (u32 headroom) := by
  obtain ⟨bin, -, hrest⟩ := allocFrom_eq_modify ha
  exact ⟨bin, hrest⟩

theorem Ok.modify (h : pool.Ok m)
    (hf : ∀ bin, pool[k]? = some bin → bin.Ok k (m k) →
      (f bin).Ok k (max (m k) (f bin).usedCount)) :
    ∀ (i : ℕ) (bin : NosBufferBin), (List.modify pool k f)[i]? = some bin →
      bin.Ok i (max (m i) bin.usedCount) := by
  intro i bin' hbin'
  rcases getElem?_modify_cases hbin' with ⟨bin, rfl, hbin, rfl⟩ | ⟨-, hbin⟩
  · exact hf bin hbin (h _ bin hbin)
  · exact (h i bin' hbin).mono

theorem InUse.modify (h : pool.InUse r)
    (hf : ∀ bin, pool[k]? = some bin → (f bin).chunkCount = bin.chunkCount ∧
      (r.poolIdx ∈ (f bin).freeList → r.binIdx = k → r.poolIdx ∈ bin.freeList)) :
    InUse (pool.modify k f) r := by
  obtain ⟨bin, hbin, hlt, hfree⟩ := h
  by_cases hk : r.binIdx = k
  · rw [hk] at hbin
    obtain ⟨hcount, hlist⟩ := hf bin hbin
    refine ⟨f bin, ?_, hcount ▸ hlt, fun hmem => hfree (hlist hmem hk)⟩
    rw [hk, getElem?_modify_self hbin]
  · exact ⟨bin, by rw [getElem?_modify_of_ne hk, hbin], hlt, hfree⟩

theorem InUse.alloc (hu : pool.InUse r')
    (ha : pool.nosBufferAlloc size headroom = some (pool', r)) : pool'.InUse r' := by
  obtain ⟨bin, hbin, htop, -, rfl⟩ := alloc_eq_modify ha
  refine hu.modify fun bin' hbin' => ⟨rfl, fun hmem _ => ?_⟩
  obtain rfl := Option.some.inj (hbin.symm.trans hbin')
  rw [NosBufferBin.freeList_take _ _ htop]
  exact List.mem_append_left _ hmem

/-- The chunk that an allocation returns was not in use, and is so now. -/
theorem alloc_inUse (h : pool.Ok m)
    (ha : pool.nosBufferAlloc size headroom = some (pool', r)) :
    ¬ pool.InUse r ∧ pool'.InUse r := by
  obtain ⟨bin, hbin, htop, hidx, rfl⟩ := alloc_eq_modify ha
  have hok := h _ bin hbin
  have hmem := hok.topIdx_mem htop
  constructor
  · rintro ⟨bin', hbin', -, hfree⟩
    obtain rfl := Option.some.inj (hbin.symm.trans hbin')
    exact hfree (hidx ▸ hmem)
  · refine ⟨_, getElem?_modify_self hbin, hidx ▸ hok.free_lt _ hmem, fun hmem' => ?_⟩
    have hnodup := hok.nodup
    rw [NosBufferBin.freeList_take (u32 size) (u32 headroom) htop] at hnodup
    exact (List.nodup_append.mp hnodup).2.2 _ hmem' _ (List.mem_singleton_self _) hidx

theorem InUse.fetchAdd {d : ℤ} (h : pool.InUse r') :
    InUse (pool.modify k fun bin => bin.fetchAdd i d) r' :=
  h.modify fun _ _ => ⟨rfl, fun hmem _ => hmem⟩

/-- The `ref_cnt` at an address. -/
def refCnt? (pool : NosBufferPool) (r : BufferRef) : Option ℤ :=
  (pool.buffer? r).map (·.refCnt)

theorem refCnt?_eq (h : pool[r.binIdx]? = some bin) :
    pool.refCnt? r = some (bin.buffers r.poolIdx).refCnt := by
  simp [refCnt?, buffer?, h]

theorem refCnt?_modify_of_ne (hf : ∀ bin, pool[k]? = some bin → r.binIdx = k →
    ((f bin).buffers r.poolIdx).refCnt = (bin.buffers r.poolIdx).refCnt) :
    refCnt? (pool.modify k f) r = pool.refCnt? r := by
  by_cases hk : k = r.binIdx
  · subst hk
    cases hbin : pool[r.binIdx]? with
    | none => simp [refCnt?, buffer?, hbin]
    | some bin =>
      rw [refCnt?_eq (getElem?_modify_self hbin), refCnt?_eq hbin, hf bin hbin rfl]
  · simp [refCnt?, buffer?, getElem?_modify_of_ne (Ne.symm hk)]

theorem refCnt?_fetchAdd_self (d : ℤ) : refCnt? (pool.modify r.binIdx fun bin =>
    bin.fetchAdd r.poolIdx d) r = (pool.refCnt? r).map fun c => Int.bmod (c + d) (2 ^ 32) := by
  cases hbin : pool[r.binIdx]? with
  | none => simp [refCnt?, buffer?, hbin]
  | some bin =>
    rw [refCnt?_eq (getElem?_modify_self hbin), refCnt?_eq hbin]
    simp [NosBufferBin.fetchAdd, NosBufferBin.setBuffer]

theorem refCnt?_fetchAdd_of_ne (d : ℤ) (h : r' ≠ r) : refCnt? (pool.modify r.binIdx fun bin =>
    bin.fetchAdd r.poolIdx d) r' = pool.refCnt? r' := by
  refine refCnt?_modify_of_ne fun bin _ hk => ?_
  have hne : r'.poolIdx ≠ r.poolIdx := by
    intro he
    exact h (by cases r; cases r'; simp_all)
  simp [NosBufferBin.fetchAdd, NosBufferBin.setBuffer, Function.update_of_ne hne]

theorem refCnt?_alloc_self (ha : pool.nosBufferAlloc size headroom = some (pool', r)) :
    pool'.refCnt? r = some 1 := by
  obtain ⟨bin, hbin, -, hidx, rfl⟩ := alloc_eq_modify ha
  rw [refCnt?_eq (getElem?_modify_self hbin), NosBufferBin.buffers_take, hidx,
    Function.update_self]

theorem refCnt?_alloc_of_ne (ha : pool.nosBufferAlloc size headroom = some (pool', r))
    (h : r' ≠ r) : pool'.refCnt? r' = pool.refCnt? r' := by
  obtain ⟨bin, hbin, -, hidx, rfl⟩ := alloc_eq_modify ha
  refine refCnt?_modify_of_ne fun bin' hbin' hk => ?_
  obtain rfl := Option.some.inj (hbin.symm.trans hbin')
  have hne : r'.poolIdx ≠ bin.topIdx := by
    intro he
    exact h (by cases r; cases r'; simp_all)
  rw [NosBufferBin.buffers_take, Function.update_of_ne hne]

/-- What the locked section of `nos_buffer_release` does to the pool. -/
def putBack (pool : NosBufferPool) (r : BufferRef) : NosBufferPool :=
  pool.modify r.binIdx fun bin => (bin.giveBack r.poolIdx).reset r.poolIdx

theorem Ok.putBack (h : pool.Ok m) (hu : pool.InUse r) (i : ℕ) (bin : NosBufferBin)
    (hbin : (pool.putBack r)[i]? = some bin) : bin.Ok i (max (m i) bin.usedCount) := by
  refine h.modify (fun bin hbin hok => ?_) i bin hbin
  obtain ⟨bin', hbin', hlt, hfree⟩ := hu
  obtain rfl := Option.some.inj (hbin.symm.trans hbin')
  exact (hok.giveBack hlt hfree).reset.mono

theorem InUse.putBack (h : pool.Ok m) (hu : pool.InUse r') (hne : r' ≠ r) :
    (pool.putBack r).InUse r' := by
  refine hu.modify fun bin hbin => ⟨rfl, fun hmem hk => ?_⟩
  have hmem' : r'.poolIdx ∈ (bin.giveBack r.poolIdx).freeList := hmem
  rw [NosBufferBin.freeList_giveBack (h _ bin hbin).top_ge] at hmem'
  rcases List.mem_append.mp hmem' with hmem' | hmem'
  · exact hmem'
  · have he := List.mem_singleton.mp hmem'
    exact absurd (by cases r; cases r'; simp_all) hne

theorem refCnt?_putBack : (pool.putBack r).refCnt? r' = pool.refCnt? r' := by
  refine refCnt?_modify_of_ne fun bin _ _ => ?_
  simp only [NosBufferBin.reset, NosBufferBin.setBuffer, NosBufferBin.giveBack,
    Function.update_apply]
  split
  · rw [‹r'.poolIdx = _›]
  · rfl

end NosBufferPool

end GeminiNOS

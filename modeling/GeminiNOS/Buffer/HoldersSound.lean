import GeminiNOS.Buffer.PoolSound

/-! # Soundness of the buffer pool

Every chunk is on the free stack, held, or in the hands of the agent whose release
has brought its count to zero. The count of a held chunk is the number of its
references modulo `2 ^ 32`, so that it says which release is the last one as long
as no more than `2 ^ 32` references are held at a time.
-/

namespace GeminiNOS

open Foundations References

namespace BufferUse

variable {P : Type*} {s s' : BufferUse P} {p q : P} {r : BufferRef} {buf : NosBuffer}
  {size headroom i : ℕ}

/-- What is held or about to be put back is in use, counts are right, and a buffer that is about to
be put back is in the hands of one agent and held by none. -/
structure Traced (s : BufferUse P) : Prop where
  held : ∀ p r, (p, r) ∈ s.holders → s.pool.InUse r
  counted : ∀ p r, (p, r) ∈ s.holders →
    s.pool.refCnt? r = some (Int.bmod (refs s.holders r) (2 ^ 32))
  le : ∀ r, refs s.holders r ≤ 2 ^ 32
  inUse : ∀ p r, s.returning p = some r → s.pool.InUse r
  unheld : ∀ p r, s.returning p = some r → refs s.holders r = 0
  unique : ∀ p q r, s.returning p = some r → s.returning q = some r → q = p

/-- The pool is right, and so is what the agents hold. -/
structure Inv (s : BufferUse P) : Prop where
  ok : s.pool.Ok s.maxUsed
  traced : s.Traced

/-- The invariant, up to the note of the `used_count`. -/
structure Moved (s : BufferUse P) : Prop where
  ok : ∀ (i : ℕ) (bin : NosBufferBin), s.pool[i]? = some bin →
    bin.Ok i (max (s.maxUsed i) bin.usedCount)
  traced : s.Traced

theorem Moved.note (h : s.Moved) : s.note.Inv where
  ok := by
    intro i bin hbin
    have hused : s.usedCount i = bin.usedCount := by
      rw [usedCount, show s.pool[i]? = some bin from hbin]
      rfl
    show bin.Ok i (max (s.maxUsed i) (s.usedCount i))
    rw [hused]
    exact h.ok i bin hbin
  traced := ⟨h.traced.held, h.traced.counted, h.traced.le, h.traced.inUse, h.traced.unheld,
    h.traced.unique⟩

theorem Inv.moved (h : s.Inv) : s.Moved where
  ok := fun i bin hbin => (h.ok i bin hbin).mono
  traced := h.traced

theorem Inv.not_held (h : s.Inv) (hr : ¬ s.pool.InUse r) :
    (∀ p, (p, r) ∉ s.holders) ∧ ∀ p, s.returning p ≠ some r :=
  ⟨fun p hp => hr (h.traced.held p r hp), fun p hp => hr (h.traced.inUse p r hp)⟩

theorem Inv.sound (h : s.Inv) : s.Sound := by
  constructor
  · intro i bin hbin
    have hok := h.ok i bin hbin
    have htop := hok.top_lt
    refine ⟨hok.nodup, fun j hj p hp => ?_, by omega, hok.used_eq, hok.peak_eq⟩
    obtain ⟨bin', hbin', -, hfree⟩ := h.traced.held p ⟨i, j⟩ hp
    obtain rfl := Option.some.inj (hbin.symm.trans hbin')
    exact hfree hj
  · intro size headroom pool r ha
    exact h.not_held (NosBufferPool.alloc_inUse h.ok ha).1

theorem Inv.alloc (h : s.Inv) : (s.nosBufferAlloc p size headroom).Moved := by
  unfold nosBufferAlloc
  cases ha : s.pool.nosBufferAlloc size headroom with
  | none => exact h.moved
  | some x =>
    obtain ⟨pool, r⟩ := x
    obtain ⟨hfree, huse⟩ := NosBufferPool.alloc_inUse h.ok ha
    obtain ⟨hunheld, hnot⟩ := h.not_held hfree
    have hzero := refs_eq_zero_iff.mpr hunheld
    have hkeep {r'} (hu : s.pool.InUse r') : pool.InUse r' := hu.alloc ha
    constructor
    · obtain ⟨bin, hbin, htop, -, rfl⟩ := NosBufferPool.alloc_eq_modify ha
      refine h.ok.modify fun bin' hbin' hok => hok.take ?_
      obtain rfl := Option.some.inj (hbin.symm.trans hbin')
      exact htop
    constructor
    · intro q r' hq
      rcases List.mem_cons.mp hq with he | hq
      · obtain ⟨rfl, rfl⟩ := Prod.mk.inj he
        exact huse
      · exact hkeep (h.traced.held q r' hq)
    · intro q r' hq
      by_cases hr : r' = r
      · subst hr
        show pool.refCnt? r' = some (Int.bmod (refs ((p, r') :: s.holders) r' : ℕ) _)
        rw [NosBufferPool.refCnt?_alloc_self ha, refs_cons_self, hzero]
        rfl
      · rcases List.mem_cons.mp hq with he | hq
        · exact absurd (Prod.mk.inj he).2 hr
        · show pool.refCnt? r' = some (Int.bmod (refs ((p, r) :: s.holders) r' : ℕ) _)
          rw [NosBufferPool.refCnt?_alloc_of_ne ha hr, refs_cons_of_ne hr]
          exact h.traced.counted q r' hq
    · intro r'
      show refs ((p, r) :: s.holders) r' ≤ 2 ^ 32
      by_cases hr : r' = r
      · rw [hr, refs_cons_self, hzero]
        omega
      · rw [refs_cons_of_ne hr]
        exact h.traced.le r'
    · exact fun q r' hq => hkeep (h.traced.inUse q r' hq)
    · intro q r' hq
      show refs ((p, r) :: s.holders) r' = 0
      have hr : r' ≠ r := by
        rintro rfl
        exact hnot q hq
      rw [refs_cons_of_ne hr]
      exact h.traced.unheld q r' hq
    · exact h.traced.unique

theorem Inv.ok_fetchAdd (h : s.Inv) (r : BufferRef) (d : ℤ) (i : ℕ) (bin : NosBufferBin)
    (hbin : (s.fetchAdd r d).pool[i]? = some bin) : bin.Ok i (max (s.maxUsed i) bin.usedCount) :=
  h.ok.modify (fun _ _ hok => hok.fetchAdd.mono) i bin hbin

theorem Inv.retain (h : s.Inv) (hp : (p, r) ∈ s.holders) (hfits : refs s.holders r < 2 ^ 32) :
    Moved { s.fetchAdd r 1 with holders := (p, r) :: s.holders } := by
  have hcount := h.traced.counted p r hp
  constructor
  · exact h.ok_fetchAdd r 1
  constructor
  · intro q r' hq
    refine NosBufferPool.InUse.fetchAdd ?_
    rcases List.mem_cons.mp hq with he | hq
    · obtain ⟨rfl, rfl⟩ := Prod.mk.inj he
      exact h.traced.held q r' hp
    · exact h.traced.held q r' hq
  · intro q r' hq
    show (s.fetchAdd r 1).pool.refCnt? r' = some (Int.bmod (refs ((p, r) :: s.holders) r' : ℕ) _)
    by_cases hr : r' = r
    · subst hr
      rw [fetchAdd, NosBufferPool.refCnt?_fetchAdd_self, hcount, refs_cons_self]
      simp [Int.bmod_add_bmod]
    · rcases List.mem_cons.mp hq with he | hq
      · exact absurd (Prod.mk.inj he).2 hr
      · rw [fetchAdd, NosBufferPool.refCnt?_fetchAdd_of_ne 1 hr, refs_cons_of_ne hr]
        exact h.traced.counted q r' hq
  · intro r'
    show refs ((p, r) :: s.holders) r' ≤ 2 ^ 32
    by_cases hr : r' = r
    · rw [hr, refs_cons_self]
      exact hfits
    · rw [refs_cons_of_ne hr]
      exact h.traced.le r'
  · exact fun q r' hq => (h.traced.inUse q r' hq).fetchAdd
  · intro q r' hq
    have hzero := h.traced.unheld q r' hq
    show refs ((p, r) :: s.holders) r' = 0
    have hr : r' ≠ r := by
      rintro rfl
      exact absurd (refs_pos hp) (by omega)
    rw [refs_cons_of_ne hr, hzero]
  · exact h.traced.unique

/-- The test of a release finds out whether it gives up the last reference. -/
theorem Inv.last_iff (h : s.Inv) (hp : (p, r) ∈ s.holders) :
    (s.pool.buffer? r).any (fun buf => buf.refCnt = 1) ↔ refs s.holders r = 1 := by
  have hcount := h.traced.counted p r hp
  have hle := h.traced.le r
  have hpos := refs_pos hp
  obtain ⟨buf, hbuf, hcnt⟩ := Option.map_eq_some_iff.mp hcount
  rw [hbuf, Option.any_some, decide_eq_true_iff, hcnt, Int.bmod_def]
  omega

variable [DecidableEq P]

theorem Inv.release (h : s.Inv) (hp : (p, r) ∈ s.holders) (hidle : s.returning p = none) :
    (s.nosBufferRelease p r).Moved := by
  have hlast := h.last_iff hp
  have herase := refs_erase_self hp
  have hcount := h.traced.counted p r hp
  have hnot : ∀ q, s.returning q ≠ some r := by
    intro q hq
    have hzero := h.traced.unheld q r hq
    exact absurd (refs_pos hp) (by omega)
  have hreturning : ∀ q r', (s.nosBufferRelease p r).returning q = some r' →
      s.returning q = some r' ∨ q = p ∧ r' = r ∧ refs s.holders r = 1 := by
    intro q r' hq
    simp only [nosBufferRelease] at hq
    split at hq
    · rw [Function.update_apply] at hq
      split at hq
      · exact .inr ⟨‹q = p›, (Option.some.inj hq).symm, hlast.mp ‹_›⟩
      · exact .inl hq
    · exact .inl hq
  constructor
  · exact h.ok_fetchAdd r (-1)
  constructor
  · exact fun q r' hq => (h.traced.held q r' (List.mem_of_mem_erase hq)).fetchAdd
  · intro q r' hq
    show (s.fetchAdd r (-1)).pool.refCnt? r' =
      some (Int.bmod (refs (s.holders.erase (p, r)) r' : ℕ) _)
    by_cases hr : r' = r
    · subst hr
      rw [fetchAdd, NosBufferPool.refCnt?_fetchAdd_self, hcount, ← herase, Option.map_some,
        Int.bmod_add_bmod]
      simp
    · rw [fetchAdd, NosBufferPool.refCnt?_fetchAdd_of_ne (-1) hr, refs_erase_of_ne hr]
      exact h.traced.counted q r' (List.mem_of_mem_erase hq)
  · intro r'
    show refs (s.holders.erase (p, r)) r' ≤ 2 ^ 32
    have hle := h.traced.le r'
    by_cases hr : r' = r
    · subst hr
      omega
    · rwa [refs_erase_of_ne hr]
  · intro q r' hq
    refine NosBufferPool.InUse.fetchAdd ?_
    rcases hreturning q r' hq with hq | ⟨-, rfl, -⟩
    · exact h.traced.inUse q r' hq
    · exact h.traced.held p r' hp
  · intro q r' hq
    show refs (s.holders.erase (p, r)) r' = 0
    rcases hreturning q r' hq with hold | ⟨-, rfl, hone⟩
    · have hr : r' ≠ r := by
        rintro rfl
        exact hnot q hold
      rw [refs_erase_of_ne hr]
      exact h.traced.unheld q r' hold
    · omega
  · intro q q' r' hq hq'
    rcases hreturning q r' hq with hold | ⟨rfl, rfl, -⟩
    · rcases hreturning q' r' hq' with hold' | ⟨-, rfl, -⟩
      · exact h.traced.unique q q' r' hold hold'
      · exact absurd hold (hnot q)
    · rcases hreturning q' r' hq' with hold' | ⟨rfl, -, -⟩
      · exact absurd hold' (hnot q')
      · rfl

theorem Inv.pool_giveBack (h : s.Inv) (hbuf : s.pool.buffer? r = some buf) :
    (s.giveBack p r buf).pool = s.pool.putBack r := by
  obtain ⟨bin, hbin, rfl⟩ := Option.map_eq_some_iff.mp hbuf
  obtain ⟨haddr, hidx⟩ := (h.ok _ bin hbin).addr r.poolIdx
  simp only [giveBack, haddr, hidx]
  exact List.modify_modify_eq ..

theorem Inv.giveBack (h : s.Inv) (hp : s.returning p = some r)
    (hbuf : s.pool.buffer? r = some buf) : (s.giveBack p r buf).Moved := by
  have hpool := h.pool_giveBack (p := p) hbuf
  have hreturning : ∀ q r', (s.giveBack p r buf).returning q = some r' →
      q ≠ p ∧ s.returning q = some r' := by
    intro q r' hq
    simp only [BufferUse.giveBack, Function.update_apply] at hq
    split at hq
    · cases hq
    · exact ⟨‹_›, hq⟩
  have hheld : ∀ q r', (q, r') ∈ s.holders → r' ≠ r := by
    rintro q r' hq rfl
    have hzero := h.traced.unheld p r' hp
    exact absurd (refs_pos hq) (by omega)
  constructor
  · rw [hpool]
    exact h.ok.putBack (h.traced.inUse p r hp)
  constructor
  · intro q r' hq
    rw [hpool]
    exact (h.traced.held q r' hq).putBack h.ok (hheld q r' hq)
  · intro q r' hq
    rw [hpool, NosBufferPool.refCnt?_putBack]
    exact h.traced.counted q r' hq
  · exact h.traced.le
  · intro q r' hq
    obtain ⟨hne, hold⟩ := hreturning q r' hq
    rw [hpool]
    refine (h.traced.inUse q r' hold).putBack h.ok ?_
    rintro rfl
    exact hne (h.traced.unique p q r' hp hold)
  · exact fun q r' hq => h.traced.unheld q r' (hreturning q r' hq).2
  · exact fun q q' r' hq hq' => h.traced.unique q q' r' (hreturning q r' hq).2
      (hreturning q' r' hq').2

theorem Inv.give (h : s.Inv) (hp : (p, r) ∈ s.holders) :
    Moved { s with holders := (q, r) :: s.holders.erase (p, r) } := by
  have hrefs : ∀ r', refs ((q, r) :: s.holders.erase (p, r)) r' = refs s.holders r' :=
    fun r' => refs_cons_erase q hp
  have hmem : ∀ q' r', (q', r') ∈ (q, r) :: s.holders.erase (p, r) →
      ∃ q', (q', r') ∈ s.holders := by
    intro q' r' hq
    rcases List.mem_cons.mp hq with he | hq
    · exact ⟨p, (Prod.mk.inj he).2 ▸ hp⟩
    · exact ⟨q', List.mem_of_mem_erase hq⟩
  constructor
  · exact h.moved.ok
  constructor
  · intro q' r' hq
    obtain ⟨q', hq⟩ := hmem q' r' hq
    exact h.traced.held q' r' hq
  · intro q' r' hq
    obtain ⟨q', hq⟩ := hmem q' r' hq
    rw [hrefs]
    exact h.traced.counted q' r' hq
  · intro r'
    rw [hrefs]
    exact h.traced.le r'
  · exact h.traced.inUse
  · exact fun q' r' hq => (hrefs r').trans (h.traced.unheld q' r' hq)
  · exact h.traced.unique

theorem Inv.move {action : BufferAction P} (h : s.Inv) (hfits : s.CountFits action)
    (hs : s.move action = some s') : s'.Moved := by
  cases action <;> simp only [BufferUse.move] at hs
  case alloc p size headroom =>
    split at hs
    · obtain rfl := Option.some.inj hs
      exact h.alloc
    · cases hs
  case retain p r =>
    split at hs
    · obtain rfl := Option.some.inj hs
      exact h.retain ‹s.Holds p r›.2 hfits
    · cases hs
  case release p r =>
    split at hs
    · obtain rfl := Option.some.inj hs
      exact h.release ‹s.Holds p r›.2 ‹s.Holds p r›.1
    · cases hs
  case giveBack p =>
    obtain ⟨r, hr, hs⟩ := Option.bind_eq_some_iff.mp hs
    obtain ⟨buf, hbuf, rfl⟩ := Option.map_eq_some_iff.mp hs
    exact h.giveBack hr hbuf
  case give p q r =>
    split at hs
    · obtain rfl := Option.some.inj hs
      exact h.give ‹s.Holds p r›.2
    · cases hs

theorem Inv.step {action : BufferAction P} (h : s.Inv) (hfits : s.CountFits action)
    (hs : s.step action = some s') : s'.Inv := by
  obtain ⟨t, ht, rfl⟩ := Option.map_eq_some_iff.mp hs
  exact (h.move hfits ht).note

omit [DecidableEq P] in
theorem mem_makeBins (config : List (ℕ × ℕ)) (k i : ℕ) (bin : NosBufferBin)
    (h : (NosBufferPool.makeBins config k)[i]? = some bin) :
    ∃ entry ∈ (config.takeWhile fun entry => entry.1 ≠ 0).take (maxBins - k),
      entry.1 ≠ 0 ∧ bin = .make (k + i) entry.1 entry.2 := by
  induction config generalizing k i with
  | nil => simp [NosBufferPool.makeBins] at h
  | cons entry config ih =>
    obtain ⟨chunkSize, chunkCount⟩ := entry
    rw [NosBufferPool.makeBins] at h
    split at h
    · simp at h
    · rename_i hcond
      obtain ⟨hsize, hk⟩ := not_or.mp hcond
      have htake : maxBins - k = maxBins - (k + 1) + 1 := by omega
      rw [List.takeWhile_cons_of_pos (by simpa using hsize), htake, List.take_succ_cons]
      cases i with
      | zero =>
        rw [List.getElem?_cons_zero] at h
        exact ⟨_, List.mem_cons_self, hsize, (Option.some.inj h).symm⟩
      | succ i =>
        rw [List.getElem?_cons_succ] at h
        obtain ⟨entry, hentry, hne, rfl⟩ := ih (k + 1) i h
        exact ⟨entry, List.mem_cons_of_mem _ hentry, hne, by rw [Nat.add_right_comm]; rfl⟩

omit [DecidableEq P] in
theorem FitsWord.count_lt {entry : ℕ × ℕ} (h : FitsWord entry) (hne : entry.1 ≠ 0) :
    entry.2 < 2 ^ 32 := by
  refine lt_of_le_of_lt (Nat.le_mul_of_pos_left entry.2 ?_) h.2
  unfold cacheLineSize
  omega

omit [DecidableEq P] in
theorem Inv.init_of_count_lt {config : List (ℕ × ℕ)}
    (h : ∀ entry ∈ configBins config, entry.2 < 2 ^ 32) : (init config : BufferUse P).Inv where
  ok := by
    intro i bin hbin
    obtain ⟨entry, hentry, -, rfl⟩ := mem_makeBins config 0 i bin hbin
    rw [Nat.zero_add]
    exact .make (h entry hentry)
  traced := by
    constructor
    · exact fun p r hp => absurd hp List.not_mem_nil
    · exact fun p r hp => absurd hp List.not_mem_nil
    · exact fun r => Nat.zero_le _
    · rintro p r ⟨⟩
    · rintro p r ⟨⟩
    · rintro p q r ⟨⟩

omit [DecidableEq P] in
theorem Inv.init {config : List (ℕ × ℕ)} (h : ∀ entry ∈ configBins config, FitsWord entry) :
    (init config : BufferUse P).Inv := by
  refine init_of_count_lt fun entry hentry => (h entry hentry).count_lt ?_
  exact of_decide_eq_true (List.all_eq_true.mp List.all_takeWhile entry
    (List.mem_of_mem_take hentry))

/-- The pool stays sound in every run that keeps the number of references to a buffer small. -/
theorem always_sound (config : List (ℕ × ℕ)) (h : ∀ entry ∈ configBins config, FitsWord entry)
    (actions : List (BufferAction P))
    (hfits : Run.Guarded step CountFits (init config) actions) :
    Run.Always step Sound (init config) actions :=
  Run.always_of_guarded (I := Inv) (fun _ _ _ h hfits hs => h.step hfits hs)
    (fun _ h => h.sound) (Inv.init h) hfits

/-- Two agents share a buffer, and the last release puts it back. -/
theorem sound_share_and_release : Run.Always (step (P := Bool)) Sound (init [(64, 2), (2048, 1)])
    [.alloc true 10 0, .retain true ⟨0, 1⟩, .give true false ⟨0, 1⟩, .release true ⟨0, 1⟩,
      .release false ⟨0, 1⟩, .giveBack false] := by
  refine always_sound _ (by decide) _ ?_
  refine .cons rfl trivial (.cons rfl ?_ (.cons rfl trivial (.cons rfl trivial
    (.cons rfl trivial (.cons rfl trivial trivial)))))
  show refs _ _ < 2 ^ 32
  decide

/-- One agent has so many references to the only chunk of the pool. -/
structure Retained (n : ℕ) (s : BufferUse Unit) : Prop where
  pool : ∃ bin, s.pool = [bin] ∧ bin.freeTop = -1 ∧ (bin.buffers 0).binIdx = 0 ∧
    (bin.buffers 0).poolIdx = 0 ∧ (bin.buffers 0).refCnt = Int.bmod n (2 ^ 32)
  returning : s.returning () = none
  holders : s.holders = List.replicate n ((), ⟨0, 0⟩)

theorem Retained.retain {n : ℕ} {s : BufferUse Unit} (h : Retained (n + 1) s) :
    ∃ s', s.step (.retain () ⟨0, 0⟩) = some s' ∧ Retained (n + 1 + 1) s' := by
  have hholds : s.Holds () ⟨0, 0⟩ := ⟨h.returning, h.holders ▸ List.mem_cons_self⟩
  obtain ⟨bin, hpool, htop, haddr, hidx, hcnt⟩ := h.pool
  refine ⟨note { s.fetchAdd ⟨0, 0⟩ 1 with holders := ((), ⟨0, 0⟩) :: s.holders },
    by rw [step, move, if_pos hholds]; rfl, ?_, h.returning, ?_⟩
  · refine ⟨bin.fetchAdd 0 1, ?_, htop, ?_⟩
    · show List.modify s.pool 0 _ = _
      rw [hpool]
      rfl
    · simp only [NosBufferBin.fetchAdd, NosBufferBin.setBuffer, Function.update_self]
      refine ⟨haddr, hidx, ?_⟩
      rw [hcnt, Int.bmod_add_bmod]
      rfl
  · show ((), (⟨0, 0⟩ : BufferRef)) :: s.holders = _
    rw [h.holders]
    rfl

theorem Retained.retain_replicate {n : ℕ} {s : BufferUse Unit} (k : ℕ) (h : Retained (n + 1) s) :
    ∃ s', Run.exec step s (List.replicate k (.retain () ⟨0, 0⟩)) = some s' ∧
      Retained (n + 1 + k) s' := by
  induction k generalizing n s with
  | zero => exact ⟨s, rfl, h⟩
  | succ k ih =>
    obtain ⟨s', hs, h'⟩ := h.retain
    obtain ⟨t, ht, h''⟩ := ih h'
    refine ⟨t, ?_, ?_⟩
    · rw [List.replicate_succ, Run.exec_cons, hs, Option.bind_some, ht]
    · rwa [show n + 1 + (k + 1) = n + 1 + 1 + k by omega]

/-- One release too many: with the count wrapped to one, it puts back a chunk that is held. -/
theorem Retained.release {s : BufferUse Unit} (h : Retained (2 ^ 32 + 1) s) :
    ∃ t, Run.exec step s [.release () ⟨0, 0⟩, .giveBack ()] = some t ∧ ¬ t.Sound := by
  have hheld : ((), ⟨0, 0⟩) ∈ s.holders := by
    rw [h.holders]
    exact List.mem_replicate.mpr ⟨by omega, rfl⟩
  have hrest : ((), ⟨0, 0⟩) ∈ s.holders.erase ((), ⟨0, 0⟩) := by
    rw [h.holders, List.replicate_succ, List.erase_cons_head]
    exact List.mem_replicate.mpr ⟨by omega, rfl⟩
  obtain ⟨bin, hpool, htop, haddr, hidx, hcnt⟩ := h.pool
  have hone : (bin.buffers 0).refCnt = 1 := hcnt.trans (by decide)
  have hlast : (s.pool.buffer? ⟨0, 0⟩).any fun buf => buf.refCnt = 1 := by
    rw [hpool]
    exact decide_eq_true hone
  have hpool' : (s.nosBufferRelease () ⟨0, 0⟩).pool = [bin.fetchAdd 0 (-1)] := by
    show List.modify s.pool 0 _ = _
    rw [hpool]
    rfl
  have hbuf : (s.nosBufferRelease () ⟨0, 0⟩).pool.buffer? ⟨0, 0⟩ =
      some ((bin.fetchAdd 0 (-1)).buffers 0) := by
    rw [hpool']
    rfl
  have hreturning : (s.nosBufferRelease () ⟨0, 0⟩).returning () = some ⟨0, 0⟩ := by
    rw [nosBufferRelease, if_pos hlast]
    rfl
  have hrel : s.step (.release () ⟨0, 0⟩) = some (s.nosBufferRelease () ⟨0, 0⟩).note := by
    rw [step, move, if_pos ⟨h.returning, hheld⟩, Option.map_some]
  have hback : (s.nosBufferRelease () ⟨0, 0⟩).note.step (.giveBack ()) =
      some ((s.nosBufferRelease () ⟨0, 0⟩).note.giveBack () ⟨0, 0⟩
        ((bin.fetchAdd 0 (-1)).buffers 0)).note := by
    rw [step, move, show (s.nosBufferRelease () ⟨0, 0⟩).note.returning () = _ from hreturning,
      Option.bind_some, show (s.nosBufferRelease () ⟨0, 0⟩).note.pool.buffer? _ = _ from hbuf]
    rfl
  refine ⟨_, by rw [Run.exec_cons, hrel, Option.bind_some, Run.exec_cons, hback]; rfl, ?_⟩
  have haddr' : ((bin.fetchAdd 0 (-1)).buffers 0).binIdx = 0 := by
    simpa [NosBufferBin.fetchAdd, NosBufferBin.setBuffer] using haddr
  have hidx' : ((bin.fetchAdd 0 (-1)).buffers 0).poolIdx = 0 := by
    simpa [NosBufferBin.fetchAdd, NosBufferBin.setBuffer] using hidx
  have hfinal : ((s.nosBufferRelease () ⟨0, 0⟩).note.giveBack () ⟨0, 0⟩
      ((bin.fetchAdd 0 (-1)).buffers 0)).pool =
      [((bin.fetchAdd 0 (-1)).giveBack 0).reset 0] := by
    show List.modify (List.modify (s.nosBufferRelease () ⟨0, 0⟩).pool _ _) 0 _ = _
    rw [hpool', haddr', hidx']
    rfl
  have hfree : (((bin.fetchAdd 0 (-1)).giveBack 0).reset 0).freeList = bin.freeList ++ [0] :=
    NosBufferBin.freeList_giveBack
      (show -1 ≤ (bin.fetchAdd 0 (-1)).freeTop from Int.le_of_eq htop.symm)
  have hbin : ((s.nosBufferRelease () ⟨0, 0⟩).note.giveBack () ⟨0, 0⟩
      ((bin.fetchAdd 0 (-1)).buffers 0)).note.pool[0]? =
      some (((bin.fetchAdd 0 (-1)).giveBack 0).reset 0) := congrArg (·[0]?) hfinal
  intro hsound
  exact (hsound.1 0 _ hbin).unheld 0 (hfree ▸ List.mem_append_right _ List.mem_cons_self) () hrest

theorem retained_alloc : ∃ s, (init [(64, 1)] : BufferUse Unit).step (.alloc () 0 0) = some s ∧
    Retained 1 s :=
  ⟨_, rfl, ⟨⟨_, rfl, rfl, rfl, rfl, rfl⟩, rfl, rfl⟩⟩

/-- `2 ^ 32 + 1` references to one buffer wrap its count to one, and a release puts the chunk back
on the free stack while it is held. -/
theorem not_sound_count_wraps : ∃ t, Run.exec step (init [(64, 1)] : BufferUse Unit)
    (.alloc () 0 0 :: (List.replicate (2 ^ 32) (.retain () ⟨0, 0⟩) ++
      [.release () ⟨0, 0⟩, .giveBack ()])) = some t ∧ ¬ t.Sound := by
  obtain ⟨s, hs, h⟩ := retained_alloc
  obtain ⟨s', hs', h'⟩ := h.retain_replicate (2 ^ 32)
  obtain ⟨t, ht, hbad⟩ := (show Retained (2 ^ 32 + 1) s' by rwa [Nat.add_comm]).release
  refine ⟨t, ?_, hbad⟩
  rw [Run.exec_cons, hs, Option.bind_some]
  exact Run.exec_trans hs' ht

end BufferUse

end GeminiNOS

import GeminiNOS.Buffer.Pool
import GeminiNOS.Foundations.WrappedSlots
import Mathlib.Data.Nat.Bitwise

/-! # Ranges of chunks

A bin cuts the block that it asks of the allocator into chunks of its rounded size, and a
fresh buffer is a window on one chunk. Sizes and offsets are 32-bit words: the chunks are
apart as long as the rounded size times the count is one, and the window lies inside its
chunk as long as the sum of size and headroom is one.
-/

namespace GeminiNOS

open Foundations WrappedSlots

namespace NosBufferBin

/-- The size that `posix_memalign` is asked for. -/
def blockSize (bin : NosBufferBin) : ℕ := u32 (bin.chunkSize * bin.chunkCount)

/-- The bytes of a chunk, as offsets into the block of its bin. -/
def chunk (bin : NosBufferBin) (j : ℕ) : Set ℕ :=
  Set.Ico (bin.buffers j).rawData ((bin.buffers j).rawData + (bin.buffers j).capacity)

/-- The chunks of a bin do not overlap, lie inside its block and have the configured size. -/
structure ChunksApart (bin : NosBufferBin) (chunkSize : ℕ) : Prop where
  disjoint : ∀ j k, j < bin.chunkCount → k < bin.chunkCount → j ≠ k →
    Disjoint (bin.chunk j) (bin.chunk k)
  inside : ∀ j < bin.chunkCount,
    (bin.buffers j).rawData + (bin.buffers j).capacity ≤ bin.blockSize
  large : ∀ j < bin.chunkCount, chunkSize ≤ (bin.buffers j).capacity

/-- What the calls on a pool leave as it is: the sizes of a bin and the places of its chunks. -/
structure Layout where
  chunkSize : ℕ
  chunkCount : ℕ
  rawData : ℕ → ℕ
  capacity : ℕ → ℕ

def layout (bin : NosBufferBin) : Layout where
  chunkSize := bin.chunkSize
  chunkCount := bin.chunkCount
  rawData j := (bin.buffers j).rawData
  capacity j := (bin.buffers j).capacity

end NosBufferBin

/-- The window of a fresh buffer lies in its chunk, behind the headroom. -/
structure NosBuffer.InChunk (buf : NosBuffer) (size headroom : ℕ) : Prop where
  fits : headroom + size ≤ buf.capacity
  data_eq : buf.data = buf.rawData + headroom
  len_eq : buf.len = size
  tailroom_eq : (buf.tailroom : ℤ) = buf.capacity - headroom - size

/-- The rounded size times the count, without a wrap, is a 32-bit word. -/
def BlockFits (chunkSize chunkCount : ℕ) : Prop :=
  (chunkSize + (cacheLineSize - 1)) / cacheLineSize * cacheLineSize * chunkCount < 2 ^ 32

instance (chunkSize chunkCount : ℕ) : Decidable (BlockFits chunkSize chunkCount) :=
  inferInstanceAs (Decidable (_ < _))

variable {bin : NosBufferBin} {buf : NosBuffer} {pool pool' : NosBufferPool} {r : BufferRef}
  {size headroom chunkSize chunkCount i j k : ℕ} {config : List (ℕ × ℕ)}

namespace NosBufferBin

theorem layout_setBuffer (hraw : buf.rawData = (bin.buffers j).rawData)
    (hcap : buf.capacity = (bin.buffers j).capacity) :
    (bin.setBuffer j buf).layout = bin.layout := by
  have hraws : ∀ k, (Function.update bin.buffers j buf k).rawData = (bin.buffers k).rawData := by
    intro k
    rw [Function.update_apply]
    split
    · rw [hraw, ‹k = j›]
    · rfl
  have hcaps : ∀ k, (Function.update bin.buffers j buf k).capacity =
      (bin.buffers k).capacity := by
    intro k
    rw [Function.update_apply]
    split
    · rw [hcap, ‹k = j›]
    · rfl
  simp only [layout, setBuffer, hraws, hcaps]

theorem layout_take : (bin.take size headroom).layout = bin.layout := by
  change (bin.setBuffer bin.topIdx _).layout = bin.layout
  exact layout_setBuffer rfl rfl

theorem layout_giveBack : (bin.giveBack j).layout = bin.layout := rfl

end NosBufferBin

namespace NosBufferPool

open NosBufferBin (layout_setBuffer layout_take layout_giveBack)

def layouts (pool : NosBufferPool) : List NosBufferBin.Layout := pool.map (·.layout)

theorem layouts_modify {f : NosBufferBin → NosBufferBin}
    (hf : ∀ bin, pool[k]? = some bin → (f bin).layout = bin.layout) :
    layouts (pool.modify k f) = pool.layouts := by
  apply List.ext_getElem?
  intro i
  simp only [layouts, List.getElem?_map, List.getElem?_modify]
  by_cases hk : k = i
  · subst hk
    cases hbin : pool[k]? with
    | none => rfl
    | some bin => simp [hf bin hbin]
  · cases pool[i]? <;> simp [hk]

theorem layouts_setBuffer {buf' : NosBuffer} (hb : pool.buffer? r = some buf)
    (hraw : buf'.rawData = buf.rawData) (hcap : buf'.capacity = buf.capacity) :
    (pool.setBuffer r buf').layouts = pool.layouts := by
  refine layouts_modify fun bin hbin => ?_
  rw [buffer?, hbin] at hb
  obtain rfl := Option.some.inj hb
  exact layout_setBuffer hraw hcap

theorem layouts_allocFrom (ha : allocFrom size headroom pool i = some (pool', r)) :
    pool'.layouts = pool.layouts := by
  induction pool generalizing i pool' with
  | nil => cases ha
  | cons bin bins ih =>
    rw [allocFrom] at ha
    split at ha
    · simp only [Option.some.injEq, Prod.mk.injEq] at ha
      obtain ⟨rfl, rfl⟩ := ha
      exact congrArg (· :: layouts bins) layout_take
    · obtain ⟨⟨bins', r'⟩, ha', he⟩ := Option.map_eq_some_iff.mp ha
      simp only [Prod.mk.injEq] at he
      obtain ⟨rfl, rfl⟩ := he
      exact congrArg (bin.layout :: ·) (ih ha')

theorem layouts_step {call : Call} (hs : pool.step call = some pool') :
    pool'.layouts = pool.layouts := by
  cases call with
  | alloc size headroom =>
    obtain rfl := Option.some.inj hs
    cases ha : pool.nosBufferAlloc size headroom with
    | none => rfl
    | some result => exact layouts_allocFrom ha
  | retain r =>
    obtain ⟨buf, hb, rfl⟩ := Option.map_eq_some_iff.mp hs
    exact layouts_setBuffer hb rfl rfl
  | release r =>
    obtain ⟨buf, hb, rfl⟩ := Option.map_eq_some_iff.mp hs
    split
    · refine (layouts_modify fun bin _ => layout_giveBack).trans ?_
      exact layouts_setBuffer hb rfl rfl
    · exact layouts_setBuffer hb rfl rfl
  | push r size =>
    obtain ⟨buf, hb, rfl⟩ := Option.map_eq_some_iff.mp hs
    split
    · rfl
    · exact layouts_setBuffer hb rfl rfl
  | pull r size =>
    obtain ⟨buf, hb, rfl⟩ := Option.map_eq_some_iff.mp hs
    split
    · rfl
    · exact layouts_setBuffer hb rfl rfl

theorem Reachable.layouts_eq (h : Reachable config pool) :
    pool.layouts = (nosBufferInitPool [] config).layouts :=
  Run.Reachable.invariant (I := fun pool => pool.layouts = (nosBufferInitPool [] config).layouts)
    h (fun _ _ _ hi hs => (layouts_step hs).trans hi) rfl

theorem alloc_buffer (ha : pool.nosBufferAlloc size headroom = some (pool', r)) :
    ∃ bin ∈ pool, bin.Serves (u32 (u32 size + u32 headroom)) ∧
      pool'.buffer? r = some
        { bin.buffers bin.topIdx with
          refCnt := 1
          headroom := u32 headroom
          data := (bin.buffers bin.topIdx).rawData + u32 headroom
          len := u32 size
          tailroom := u32 ((bin.buffers bin.topIdx).capacity + (2 ^ 32 - u32 headroom) +
            (2 ^ 32 - u32 size)) } := by
  obtain ⟨bin, hbin, hserves, -, hget, hidx⟩ := allocFrom_eq_some ha
  refine ⟨bin, hbin, hserves, ?_⟩
  have hbuf := congrArg (Option.map fun bin => bin.buffers r.poolIdx) hget
  rw [Option.map_some, hidx, NosBufferBin.buffers_take, Function.update_self] at hbuf
  rwa [buffer?, hidx]

/-- An allocation that succeeds returns a window that lies inside its chunk if and only if the sum
of the size and the headroom does not wrap. -/
theorem window_iff_sum_lt (h : Reachable config pool) (hsize : size < 2 ^ 32)
    (hheadroom : headroom < 2 ^ 32)
    (ha : pool.nosBufferAlloc size headroom = some (pool', r)) :
    (∃ buf, pool'.buffer? r = some buf ∧ buf.InChunk size headroom) ↔
      size + headroom < 2 ^ 32 := by
  obtain ⟨bin, hbin, ⟨hserves, -⟩, hbuf⟩ := alloc_buffer ha
  have hsized := h.sized bin hbin
  have hcap := hsized.capacity_eq bin.topIdx
  have hlt := hsized.chunkSize_lt
  rw [u32, u32, u32, Nat.mod_eq_of_lt hsize, Nat.mod_eq_of_lt hheadroom] at hserves
  simp only [u32, Nat.mod_eq_of_lt hsize, Nat.mod_eq_of_lt hheadroom, hcap] at hbuf
  constructor
  · rintro ⟨buf, hbuf', hwindow⟩
    obtain rfl := Option.some.inj (hbuf.symm.trans hbuf')
    have hfits : headroom + size ≤ bin.chunkSize := hwindow.fits
    omega
  · intro hsum
    rw [Nat.mod_eq_of_lt hsum] at hserves
    refine ⟨_, hbuf, ?_, rfl, rfl, ?_⟩
    · show headroom + size ≤ bin.chunkSize
      omega
    · have htail : bin.chunkSize + (2 ^ 32 - headroom) + (2 ^ 32 - size) =
          bin.chunkSize - headroom - size + 2 ^ 32 * 2 := by omega
      show ((bin.chunkSize + (2 ^ 32 - headroom) + (2 ^ 32 - size)) % 2 ^ 32 : ℕ) =
        (bin.chunkSize : ℤ) - headroom - size
      rw [htail, Nat.add_mul_mod_self_left, Nat.mod_eq_of_lt (by omega)]
      omega

/-- A buffer of 16 bytes behind 8 bytes of headroom. -/
theorem window_of_small_request : ∃ pool' r,
    (nosBufferInitPool [] [(64, 4)]).nosBufferAlloc 16 8 = some (pool', r) ∧
      ∃ buf, pool'.buffer? r = some buf ∧ buf.InChunk 16 8 := by
  have hreach : Reachable [(64, 4)] (nosBufferInitPool [] [(64, 4)]) := Run.Reachable.refl _
  exact ⟨_, _, rfl, (window_iff_sum_lt hreach (by decide) (by decide) rfl).mpr (by decide)⟩

/-- The sum of the request wraps to one byte, which a chunk of 64 bytes serves. -/
theorem not_window_of_wrapped_sum : ∃ pool' r,
    (nosBufferInitPool [] [(64, 4)]).nosBufferAlloc (2 ^ 32 - 1) 2 = some (pool', r) ∧
      ¬ ∃ buf, pool'.buffer? r = some buf ∧ buf.InChunk (2 ^ 32 - 1) 2 := by
  refine ⟨_, _, rfl, ?_⟩
  rintro ⟨buf, hbuf, hwindow⟩
  obtain rfl := Option.some.inj hbuf
  exact absurd hwindow.fits (by decide)

theorem and_mask {n : ℕ} (h : n < 2 ^ 32) :
    n &&& (0xFFFFFFFF - (cacheLineSize - 1)) = n / cacheLineSize * cacheLineSize := by
  have hmask : 0xFFFFFFFF - (cacheLineSize - 1) = (2 ^ 26 - 1) <<< 6 := rfl
  have hround : n / cacheLineSize * cacheLineSize = (n >>> 6) <<< 6 := by
    rw [Nat.shiftLeft_eq, Nat.shiftRight_eq_div_pow]
    rfl
  rw [hmask, hround]
  apply Nat.eq_of_testBit_eq
  intro i
  simp only [Nat.testBit_and, Nat.testBit_shiftLeft, Nat.testBit_shiftRight,
    Nat.testBit_two_pow_sub_one]
  by_cases hi : 6 ≤ i
  · rw [Nat.add_sub_cancel' hi]
    by_cases hlt : i < 32
    · simp [hi, show i - 6 < 26 by omega]
    · have hpow : 2 ^ 32 ≤ 2 ^ i := Nat.pow_le_pow_right Nat.two_pos (Nat.not_lt.mp hlt)
      simp [Nat.testBit_lt_two_pow (h.trans_le hpow)]
  · simp [hi]

theorem chunkSize_make_of_lt (h : chunkSize + (cacheLineSize - 1) < 2 ^ 32) :
    (NosBufferBin.make i chunkSize chunkCount).chunkSize =
      (chunkSize + (cacheLineSize - 1)) / cacheLineSize * cacheLineSize := by
  show u32 (chunkSize + (cacheLineSize - 1)) &&& _ = _
  rw [u32, Nat.mod_eq_of_lt h, and_mask h]

/-- The rounding of a size close to the end of the words wraps to zero. -/
theorem chunkSize_make_of_ge (hlt : chunkSize < 2 ^ 32)
    (h : 2 ^ 32 ≤ chunkSize + (cacheLineSize - 1)) :
    (NosBufferBin.make i chunkSize chunkCount).chunkSize = 0 := by
  show u32 (chunkSize + (cacheLineSize - 1)) &&& _ = _
  have hmod : u32 (chunkSize + (cacheLineSize - 1)) < cacheLineSize := by
    unfold u32 cacheLineSize at *
    omega
  rw [and_mask (hmod.trans (by decide)), Nat.div_eq_of_lt hmod, Nat.zero_mul]

theorem le_round (chunkSize : ℕ) :
    chunkSize ≤ (chunkSize + (cacheLineSize - 1)) / cacheLineSize * cacheLineSize := by
  unfold cacheLineSize
  omega

theorem chunksApart_make (hround : chunkSize + (cacheLineSize - 1) < 2 ^ 32)
    (hfits : BlockFits chunkSize chunkCount) :
    (NosBufferBin.make i chunkSize chunkCount).ChunksApart chunkSize := by
  have hsize : (NosBufferBin.make i chunkSize chunkCount).chunkSize = _ :=
    chunkSize_make_of_lt hround
  unfold BlockFits at hfits
  rw [← hsize, Nat.mul_comm] at hfits
  have hoffset : ∀ j < chunkCount,
      j * (NosBufferBin.make i chunkSize chunkCount).chunkSize < 2 ^ 32 := fun j hj =>
    (Nat.mul_le_mul_right _ hj.le).trans_lt hfits
  have hblock : (NosBufferBin.make i chunkSize chunkCount).blockSize =
      chunkCount * (NosBufferBin.make i chunkSize chunkCount).chunkSize := by
    rw [NosBufferBin.blockSize, Nat.mul_comm]
    exact Nat.mod_eq_of_lt hfits
  constructor
  · exact fun j k hj hk hne => disjoint_slot le_rfl (hoffset j hj) (hoffset k hk) hne
  · intro j hj
    rw [hblock]
    exact slot_end_le le_rfl hj (hoffset j hj)
  · intro j hj
    show chunkSize ≤ (NosBufferBin.make i chunkSize chunkCount).chunkSize
    rw [hsize]
    exact le_round chunkSize

theorem blockFits_of_chunksApart (hpos : 0 < chunkSize) (hlt : chunkSize < 2 ^ 32)
    (h : (NosBufferBin.make i chunkSize chunkCount).ChunksApart chunkSize) :
    BlockFits chunkSize chunkCount := by
  rcases Nat.eq_zero_or_pos chunkCount with rfl | hcount
  · exact (Nat.mul_zero _).trans_lt (by decide)
  have hlarge : chunkSize ≤ (NosBufferBin.make i chunkSize chunkCount).chunkSize :=
    h.large 0 hcount
  rcases Nat.lt_or_ge (chunkSize + (cacheLineSize - 1)) (2 ^ 32) with hround | hround
  · by_contra hwrap
    unfold BlockFits at hwrap
    have hsize : (NosBufferBin.make i chunkSize chunkCount).chunkSize = _ :=
      chunkSize_make_of_lt hround
    rw [← hsize, not_lt, Nat.mul_comm] at hwrap
    obtain ⟨j, hj, hend⟩ := exists_slot_end_gt (hpos.trans_le hlarge) (by decide) hwrap
    rw [Nat.mul_comm chunkCount] at hend
    exact absurd (h.inside j hj) (Nat.not_le.mpr hend)
  · have hzero : (NosBufferBin.make i chunkSize chunkCount).chunkSize = 0 :=
      chunkSize_make_of_ge hlt hround
    omega

theorem chunksApart_make_iff (hpos : 0 < chunkSize) (hlt : chunkSize < 2 ^ 32) :
    (NosBufferBin.make i chunkSize chunkCount).ChunksApart chunkSize ↔
      BlockFits chunkSize chunkCount := by
  refine ⟨blockFits_of_chunksApart hpos hlt, fun hfits => ?_⟩
  rcases Nat.lt_or_ge (chunkSize + (cacheLineSize - 1)) (2 ^ 32) with hround | hround
  · exact chunksApart_make hround hfits
  · have hcount : chunkCount = 0 := by
      by_contra hne
      have hmul := Nat.le_mul_of_pos_right
        ((chunkSize + (cacheLineSize - 1)) / cacheLineSize * cacheLineSize) (Nat.pos_of_ne_zero hne)
      unfold BlockFits cacheLineSize at *
      omega
    subst hcount
    exact ⟨fun j _ hj => absurd hj (Nat.not_lt_zero j), fun j hj => absurd hj (Nat.not_lt_zero j),
      fun j hj => absurd hj (Nat.not_lt_zero j)⟩

theorem chunksApart_congr {bin bin' : NosBufferBin} (h : bin'.layout = bin.layout) :
    bin'.ChunksApart chunkSize ↔ bin.ChunksApart chunkSize := by
  obtain ⟨hsize, hcount, hraw, hcap⟩ := NosBufferBin.Layout.mk.inj h
  have hraw' : ∀ j, (bin'.buffers j).rawData = (bin.buffers j).rawData := congrFun hraw
  have hcap' : ∀ j, (bin'.buffers j).capacity = (bin.buffers j).capacity := congrFun hcap
  have hchunk : ∀ j, bin'.chunk j = bin.chunk j := fun j => by
    rw [NosBufferBin.chunk, hraw', hcap', NosBufferBin.chunk]
  have hblock : bin'.blockSize = bin.blockSize := by
    rw [NosBufferBin.blockSize, hsize, hcount, NosBufferBin.blockSize]
  constructor
  · rintro ⟨hdisjoint, hinside, hlarge⟩
    simp only [hcount, hchunk, hraw', hcap', hblock] at hdisjoint hinside hlarge
    exact ⟨hdisjoint, hinside, hlarge⟩
  · rintro ⟨hdisjoint, hinside, hlarge⟩
    simp only [← hcount, ← hchunk, ← hraw', ← hcap', ← hblock] at hdisjoint hinside hlarge
    exact ⟨hdisjoint, hinside, hlarge⟩

theorem getElem?_makeBins (h : (makeBins config k)[i]? = some bin) :
    ∃ chunkSize chunkCount, config[i]? = some (chunkSize, chunkCount) ∧ 0 < chunkSize ∧
      bin = .make (k + i) chunkSize chunkCount := by
  induction config generalizing k i with
  | nil => cases h
  | cons entry config ih =>
    obtain ⟨chunkSize, chunkCount⟩ := entry
    rw [makeBins] at h
    split at h
    · cases h
    · rename_i hcond
      cases i with
      | zero =>
        refine ⟨chunkSize, chunkCount, rfl, ?_, (Option.some.inj h).symm⟩
        exact Nat.pos_of_ne_zero fun h0 => hcond (.inl h0)
      | succ i =>
        obtain ⟨chunkSize, chunkCount, hc, hpos, rfl⟩ := ih h
        exact ⟨chunkSize, chunkCount, hc, hpos, by rw [Nat.add_right_comm]; rfl⟩

/-- In every state of a pool, the chunks of a bin are apart, inside its block and large enough if
and only if the rounded size times the count is a 32-bit word. -/
theorem chunksApart_iff_blockFits (h : Reachable config pool) (hbin : pool[i]? = some bin)
    (hc : config[i]? = some (chunkSize, chunkCount)) (hsize : chunkSize < 2 ^ 32) :
    bin.ChunksApart chunkSize ↔ BlockFits chunkSize chunkCount := by
  have hlayout := congrArg (·[i]?) h.layouts_eq
  simp only [layouts, List.getElem?_map, hbin, Option.map_some] at hlayout
  obtain ⟨bin₀, hbin₀, hsame⟩ := Option.map_eq_some_iff.mp hlayout.symm
  obtain ⟨_, _, hc', hpos, rfl⟩ := getElem?_makeBins hbin₀
  obtain ⟨rfl, rfl⟩ := Prod.mk.inj (Option.some.inj (hc'.symm.trans hc))
  rw [chunksApart_congr hsame.symm]
  exact chunksApart_make_iff hpos hsize

/-- The first bin of the default profile. -/
theorem chunksApart_default_bin : ∃ bin,
    (nosBufferInitPool [] [(32, 512), (128, 256)])[0]? = some bin ∧ bin.ChunksApart 32 := by
  have hreach : Reachable [(32, 512), (128, 256)]
      (nosBufferInitPool [] [(32, 512), (128, 256)]) := Run.Reachable.refl _
  have hentry : [(32, 512), (128, 256)][0]? = some (32, 512) := rfl
  exact ⟨_, rfl, (chunksApart_iff_blockFits hreach rfl hentry (by decide)).mpr (by decide)⟩

/-- The size of a block of `2 ^ 26` chunks of 64 bytes wraps to zero. -/
theorem not_chunksApart_wrapped_block : ∃ bin,
    (nosBufferInitPool [] [(64, 2 ^ 26)])[0]? = some bin ∧ ¬ bin.ChunksApart 64 := by
  refine ⟨_, rfl, fun h => ?_⟩
  exact absurd (h.inside 0 (by decide)) (by decide)

end NosBufferPool

end GeminiNOS

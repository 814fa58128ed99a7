import GeminiNOS.Basic
import GeminiNOS.Foundations.Run

/-! # The buffer pool

Chunks of memory in up to eight bins of one chunk size each, with a descriptor
for every chunk. Descriptors are addressed by their bin and their index in it.
A process whose memory runs out while it builds the pool exits.
-/

namespace GeminiNOS

open Foundations

/-- `MAX_BINS` -/
def maxBins : ℕ := 8

/-- `CACHE_LINE_SIZE` -/
def cacheLineSize : ℕ := 64

/-- The descriptor `nos_buffer_t`; `rawData` and `data` are offsets into the memory of its bin. -/
structure NosBuffer where
  rawData : ℕ
  data : ℕ
  capacity : ℕ
  len : ℕ
  headroom : ℕ
  tailroom : ℕ
  refCnt : ℤ
  binIdx : ℕ
  poolIdx : ℕ
  flags : ℕ
  deriving DecidableEq, Repr

/-- A bin `nos_buffer_bin_t`. -/
structure NosBufferBin where
  chunkSize : ℕ
  chunkCount : ℕ
  buffers : ℕ → NosBuffer
  freeStack : ℕ → ℕ
  freeTop : ℤ
  usedCount : ℕ
  peakCount : ℕ

/-- The bins in use, `g_bins` up to `g_bin_count`. -/
abbrev NosBufferPool := List NosBufferBin

/-- The address of a descriptor. -/
structure BufferRef where
  binIdx : ℕ
  poolIdx : ℕ
  deriving DecidableEq, Repr

/-- The bytes from `data` to the end of the chunk. -/
def NosBuffer.room (buf : NosBuffer) : ℤ := buf.rawData + buf.capacity - buf.data

namespace NosBufferBin

/-- A bin of the configured size, with all its chunks free. -/
def make (i chunkSize chunkCount : ℕ) : NosBufferBin :=
  let aligned := u32 (chunkSize + cacheLineSize - 1) &&& (0xFFFFFFFF - (cacheLineSize - 1))
  { chunkSize := aligned
    chunkCount := chunkCount
    buffers := fun j =>
      { rawData := u32 (j * aligned)
        data := u32 (j * aligned)
        capacity := aligned
        len := 0
        headroom := 0
        tailroom := aligned
        refCnt := 0
        binIdx := i
        poolIdx := j
        flags := 0 }
    freeStack := fun j => j
    freeTop := (chunkCount : ℤ) - 1
    usedCount := 0
    peakCount := 0 }

def setBuffer (bin : NosBufferBin) (idx : ℕ) (buf : NosBuffer) : NosBufferBin :=
  { bin with buffers := Function.update bin.buffers idx buf }

def Serves (bin : NosBufferBin) (totalNeeded : ℕ) : Prop :=
  totalNeeded ≤ bin.chunkSize ∧ 0 ≤ bin.freeTop

instance (bin : NosBufferBin) (totalNeeded : ℕ) : Decidable (bin.Serves totalNeeded) :=
  inferInstanceAs (Decidable (_ ∧ _))

def topIdx (bin : NosBufferBin) : ℕ := bin.freeStack bin.freeTop.toNat

def take (bin : NosBufferBin) (size headroom : ℕ) : NosBufferBin :=
  let buf := bin.buffers bin.topIdx
  let usedCount := u32 (bin.usedCount + 1)
  { bin.setBuffer bin.topIdx
      { buf with
        refCnt := 1
        headroom := headroom
        data := buf.rawData + headroom
        len := size
        tailroom := u32 (buf.capacity + (2 ^ 32 - headroom) + (2 ^ 32 - size)) } with
    freeTop := bin.freeTop - 1
    usedCount := usedCount
    peakCount := if bin.peakCount < usedCount then usedCount else bin.peakCount }

def giveBack (bin : NosBufferBin) (poolIdx : ℕ) : NosBufferBin :=
  { bin with
    freeTop := bin.freeTop + 1
    freeStack := Function.update bin.freeStack (bin.freeTop + 1).toNat poolIdx
    usedCount := u32 (bin.usedCount + (2 ^ 32 - 1)) }

end NosBufferBin

namespace NosBufferPool

/-- The loop over a configuration, which a chunk size of zero ends. -/
def makeBins : List (ℕ × ℕ) → ℕ → NosBufferPool
  | [], _ => []
  | (chunkSize, chunkCount) :: config, i =>
    if chunkSize = 0 ∨ maxBins ≤ i then []
    else .make i chunkSize chunkCount :: makeBins config (i + 1)

/-- `nos_buffer_init_pool` -/
def nosBufferInitPool (pool : NosBufferPool) (config : List (ℕ × ℕ)) : NosBufferPool :=
  if pool = [] then makeBins config 0 else pool

/-- The loop over the bins in `nos_buffer_alloc`, from bin `i` on. -/
def allocFrom (size headroom : ℕ) : NosBufferPool → ℕ → Option (NosBufferPool × BufferRef)
  | [], _ => none
  | bin :: bins, i =>
    if bin.Serves (u32 (size + headroom)) then
      some (bin.take size headroom :: bins, ⟨i, bin.topIdx⟩)
    else (allocFrom size headroom bins (i + 1)).map fun r => (bin :: r.1, r.2)

/-- `nos_buffer_alloc` -/
def nosBufferAlloc (pool : NosBufferPool) (size headroom : ℕ) :
    Option (NosBufferPool × BufferRef) :=
  allocFrom (u32 size) (u32 headroom) pool 0

def buffer? (pool : NosBufferPool) (r : BufferRef) : Option NosBuffer :=
  pool[r.binIdx]?.map fun bin => bin.buffers r.poolIdx

def setBuffer (pool : NosBufferPool) (r : BufferRef) (buf : NosBuffer) : NosBufferPool :=
  pool.modify r.binIdx fun bin => bin.setBuffer r.poolIdx buf

/-- `nos_buffer_retain` on a buffer of the pool. -/
def nosBufferRetain (pool : NosBufferPool) (r : BufferRef) : Option NosBufferPool :=
  (pool.buffer? r).map fun buf => pool.setBuffer r { buf with refCnt := buf.refCnt + 1 }

/-- `nos_buffer_release` on a buffer of the pool. -/
def nosBufferRelease (pool : NosBufferPool) (r : BufferRef) : Option NosBufferPool :=
  (pool.buffer? r).map fun buf =>
    if buf.refCnt = 1 then
      List.modify (pool.setBuffer r
        { buf with
          refCnt := 0
          data := buf.rawData
          len := 0
          headroom := 0
          tailroom := buf.capacity }) buf.binIdx fun bin => bin.giveBack buf.poolIdx
    else pool.setBuffer r { buf with refCnt := buf.refCnt - 1 }

/-- `nos_buffer_push`; a request beyond the headroom returns `NULL`. -/
def nosBufferPush (pool : NosBufferPool) (r : BufferRef) (size : ℕ) : Option NosBufferPool :=
  (pool.buffer? r).map fun buf =>
    if buf.headroom < size then pool
    else pool.setBuffer r
      { buf with
        headroom := buf.headroom - size
        data := buf.data - size
        len := u32 (buf.len + size) }

/-- `nos_buffer_pull`; a request beyond the length returns `NULL`. -/
def nosBufferPull (pool : NosBufferPool) (r : BufferRef) (size : ℕ) : Option NosBufferPool :=
  (pool.buffer? r).map fun buf =>
    if buf.len < size then pool
    else pool.setBuffer r
      { buf with
        headroom := u32 (buf.headroom + size)
        data := buf.data + size
        len := buf.len - size }

/-- A call of the pool's interface. -/
inductive Call where
  | alloc (size headroom : ℕ)
  | retain (r : BufferRef)
  | release (r : BufferRef)
  | push (r : BufferRef) (size : ℕ)
  | pull (r : BufferRef) (size : ℕ)

/-- The effect of a call; a failed allocation has none. -/
def step (pool : NosBufferPool) : Call → Option NosBufferPool
  | .alloc size headroom => some (((pool.nosBufferAlloc size headroom).map Prod.fst).getD pool)
  | .retain r => pool.nosBufferRetain r
  | .release r => pool.nosBufferRelease r
  | .push r size => pool.nosBufferPush r size
  | .pull r size => pool.nosBufferPull r size

end NosBufferPool

variable {bin : NosBufferBin} {buf : NosBuffer} {pool pool' : NosBufferPool} {r : BufferRef}
  {size headroom i : ℕ}

/-- Every descriptor knows the size of its chunk, which is a 32-bit word. -/
structure NosBufferBin.Sized (bin : NosBufferBin) : Prop where
  chunkSize_lt : bin.chunkSize < 2 ^ 32
  capacity_eq : ∀ j, (bin.buffers j).capacity = bin.chunkSize

theorem NosBufferBin.sized_make (i chunkSize chunkCount : ℕ) :
    (make i chunkSize chunkCount).Sized where
  chunkSize_lt := Nat.and_lt_two_pow _ (by decide)
  capacity_eq _ := rfl

theorem NosBufferBin.Sized.setBuffer (h : bin.Sized) (hb : buf.capacity = bin.chunkSize) :
    (bin.setBuffer i buf).Sized := by
  refine ⟨h.chunkSize_lt, fun j => ?_⟩
  change (Function.update bin.buffers i buf j).capacity = bin.chunkSize
  rw [Function.update_apply]
  split
  · exact hb
  · exact h.capacity_eq j

theorem NosBufferBin.buffers_take : (bin.take size headroom).buffers =
    Function.update bin.buffers bin.topIdx
      { bin.buffers bin.topIdx with
        refCnt := 1
        headroom := headroom
        data := (bin.buffers bin.topIdx).rawData + headroom
        len := size
        tailroom := u32 ((bin.buffers bin.topIdx).capacity + (2 ^ 32 - headroom) +
          (2 ^ 32 - size)) } := rfl

theorem NosBufferBin.Sized.take (h : bin.Sized) : (bin.take size headroom).Sized := by
  refine ⟨h.chunkSize_lt, fun j => ?_⟩
  rw [buffers_take, Function.update_apply]
  split
  · exact h.capacity_eq bin.topIdx
  · exact h.capacity_eq j

theorem NosBufferBin.Sized.giveBack (h : bin.Sized) : (bin.giveBack i).Sized :=
  ⟨h.chunkSize_lt, h.capacity_eq⟩

namespace NosBufferPool

/-- Every descriptor of every bin knows the size of its chunk. -/
def Sized (pool : NosBufferPool) : Prop := ∀ bin ∈ pool, bin.Sized

theorem sized_makeBins (config : List (ℕ × ℕ)) (i : ℕ) : (makeBins config i).Sized := by
  induction config generalizing i with
  | nil => simp [makeBins, Sized]
  | cons entry config ih =>
    rw [makeBins]
    split
    · simp [Sized]
    · intro bin hbin
      rcases List.mem_cons.mp hbin with rfl | hbin
      · exact NosBufferBin.sized_make i _ _
      · exact ih (i + 1) bin hbin

theorem Sized.modify (h : pool.Sized) {f : NosBufferBin → NosBufferBin}
    (hf : ∀ bin, pool[i]? = some bin → bin.Sized → (f bin).Sized) : Sized (pool.modify i f) := by
  intro bin hbin
  obtain ⟨k, hk⟩ := List.mem_iff_getElem?.mp hbin
  rw [List.getElem?_modify] at hk
  obtain ⟨bin', hbin', rfl⟩ := Option.map_eq_some_iff.mp hk
  have hsized := h bin' (List.mem_of_getElem? hbin')
  split
  · rename_i hik
    exact hf bin' (hik ▸ hbin') hsized
  · exact hsized

theorem Sized.setBuffer (h : pool.Sized) {buf' : NosBuffer} (hb : pool.buffer? r = some buf)
    (hc : buf'.capacity = buf.capacity) : (pool.setBuffer r buf').Sized := by
  refine h.modify fun bin hbin hsized => hsized.setBuffer ?_
  rw [buffer?, hbin] at hb
  obtain rfl := Option.some.inj hb
  rw [hc, hsized.capacity_eq]

theorem Sized.allocFrom (h : pool.Sized) (ha : allocFrom size headroom pool i = some (pool', r)) :
    pool'.Sized := by
  induction pool generalizing i pool' with
  | nil => simp [NosBufferPool.allocFrom] at ha
  | cons bin bins ih =>
    have hbin : bin.Sized := h bin List.mem_cons_self
    have hbins : Sized bins := fun b hb => h b (List.mem_cons_of_mem bin hb)
    rw [NosBufferPool.allocFrom] at ha
    split at ha
    · simp only [Option.some.injEq, Prod.mk.injEq] at ha
      obtain ⟨rfl, rfl⟩ := ha
      exact List.forall_mem_cons.mpr ⟨hbin.take, hbins⟩
    · obtain ⟨⟨bins', r'⟩, ha', he⟩ := Option.map_eq_some_iff.mp ha
      simp only [Prod.mk.injEq] at he
      obtain ⟨rfl, rfl⟩ := he
      exact List.forall_mem_cons.mpr ⟨hbin, ih hbins ha'⟩

theorem Sized.step (h : pool.Sized) {call : Call} (hs : pool.step call = some pool') :
    pool'.Sized := by
  cases call with
  | alloc size headroom =>
    obtain rfl := Option.some.inj hs
    cases ha : pool.nosBufferAlloc size headroom with
    | none => exact h
    | some result => exact h.allocFrom ha
  | retain r =>
    obtain ⟨buf, hb, rfl⟩ := Option.map_eq_some_iff.mp hs
    exact h.setBuffer hb rfl
  | release r =>
    obtain ⟨buf, hb, rfl⟩ := Option.map_eq_some_iff.mp hs
    split
    · refine Sized.modify ?_ fun bin _ hbin => hbin.giveBack
      exact h.setBuffer hb rfl
    · exact h.setBuffer hb rfl
  | push r size =>
    obtain ⟨buf, hb, rfl⟩ := Option.map_eq_some_iff.mp hs
    split
    · exact h
    · exact h.setBuffer hb rfl
  | pull r size =>
    obtain ⟨buf, hb, rfl⟩ := Option.map_eq_some_iff.mp hs
    split
    · exact h
    · exact h.setBuffer hb rfl

def Reachable (config : List (ℕ × ℕ)) (pool : NosBufferPool) : Prop :=
  Run.Reachable step (nosBufferInitPool [] config) pool

theorem Reachable.sized {config : List (ℕ × ℕ)} (h : Reachable config pool) : pool.Sized :=
  Run.Reachable.invariant h (fun _ _ _ h hs => h.step hs) (sized_makeBins config 0)

theorem allocFrom_eq_none :
    allocFrom size headroom pool i = none ↔ ∀ bin ∈ pool, ¬ bin.Serves (u32 (size + headroom)) := by
  induction pool generalizing i with
  | nil => simp [allocFrom]
  | cons bin bins ih =>
    rw [allocFrom]
    split
    · rename_i hserves
      simp [hserves]
    · rename_i hserves
      simp [ih, hserves]

/-- An allocation returns the top chunk of a bin that serves the request. -/
theorem allocFrom_eq_some (ha : allocFrom size headroom pool i = some (pool', r)) :
    ∃ bin ∈ pool, bin.Serves (u32 (size + headroom)) ∧ i ≤ r.binIdx ∧
      pool'[r.binIdx - i]? = some (bin.take size headroom) ∧ r.poolIdx = bin.topIdx := by
  induction pool generalizing i pool' with
  | nil => simp [allocFrom] at ha
  | cons bin bins ih =>
    rw [allocFrom] at ha
    split at ha
    · rename_i hserves
      simp only [Option.some.injEq, Prod.mk.injEq] at ha
      obtain ⟨rfl, rfl⟩ := ha
      exact ⟨bin, List.mem_cons_self, hserves, le_rfl, by simp, rfl⟩
    · obtain ⟨⟨bins', r'⟩, ha', he⟩ := Option.map_eq_some_iff.mp ha
      simp only [Prod.mk.injEq] at he
      obtain ⟨rfl, rfl⟩ := he
      obtain ⟨bin', hmem, hserves, hi, hget, hidx⟩ := ih ha'
      refine ⟨bin', List.mem_cons_of_mem bin hmem, hserves, by omega, ?_, hidx⟩
      rw [show r'.binIdx - i = r'.binIdx - (i + 1) + 1 by omega, List.getElem?_cons_succ]
      exact hget

/-- The chunk behind a fresh buffer is that of its bin, less the headroom. -/
theorem Sized.alloc (h : pool.Sized) (ha : pool.nosBufferAlloc size headroom = some (pool', r)) :
    ∃ bin ∈ pool, bin.Serves (u32 (u32 size + u32 headroom)) ∧
      ∃ buf, pool'.buffer? r = some buf ∧ buf.room = bin.chunkSize - u32 headroom ∧
        buf.len = u32 size ∧ buf.refCnt = 1 := by
  obtain ⟨bin, hbin, hserves, -, hget, hidx⟩ := allocFrom_eq_some ha
  refine ⟨bin, hbin, hserves, (bin.take (u32 size) (u32 headroom)).buffers bin.topIdx, ?_, ?_⟩
  · rw [buffer?, ← hidx]
    simpa using congrArg (Option.map fun bin => bin.buffers r.poolIdx) hget
  · have hcap := (h bin hbin).capacity_eq bin.topIdx
    rw [NosBufferBin.buffers_take, Function.update_self, NosBuffer.room]
    refine ⟨?_, rfl, rfl⟩
    simp only [hcap]
    omega

end NosBufferPool

end GeminiNOS

import GeminiNOS.Buffer.ChunkRanges

/-! # Headroom

Protocol layers encapsulate in place. A layer pushes its header into the headroom in front
of the data and pulls it off again, while the end of the data stays where it is. Each of
the two calls checks one field and moves three.
-/

namespace GeminiNOS

open Foundations

namespace NosBuffer

/-- The descriptor after `nos_buffer_push`, or `none` for `NULL`. -/
def push (buf : NosBuffer) (size : ℕ) : Option NosBuffer :=
  if buf.headroom < size then none
  else some
    { buf with
      headroom := buf.headroom - size
      data := buf.data - size
      len := u32 (buf.len + size) }

/-- The descriptor after `nos_buffer_pull`, or `none` for `NULL`. -/
def pull (buf : NosBuffer) (size : ℕ) : Option NosBuffer :=
  if buf.len < size then none
  else some
    { buf with
      headroom := u32 (buf.headroom + size)
      data := buf.data + size
      len := buf.len - size }

/-- The data starts behind the headroom, and the three parts make up the chunk, whose capacity is a
32-bit word. -/
structure Divided (buf : NosBuffer) : Prop where
  data_eq : buf.data = buf.rawData + buf.headroom
  sum_eq : buf.headroom + buf.len + buf.tailroom = buf.capacity
  capacity_lt : buf.capacity < 2 ^ 32

end NosBuffer

/-- A call on the window of a buffer. -/
inductive WindowCall where
  | push (size : ℕ)
  | pull (size : ℕ)
  deriving DecidableEq, Repr

namespace NosBufferPool

def windowStep (r : BufferRef) (pool : NosBufferPool) : WindowCall → Option NosBufferPool
  | .push size => pool.nosBufferPush r size
  | .pull size => pool.nosBufferPull r size

/-- The law of the window of a buffer. Its parts make up the chunk. A call that returns `NULL`
changes nothing, and after any other the opposite call with the same size brings the descriptor
back. -/
structure WindowLaw (pool : NosBufferPool) (r : BufferRef) (buf : NosBuffer) : Prop where
  buffer_eq : pool.buffer? r = some buf
  divided : buf.Divided
  push_null : ∀ size, buf.push size = none → pool.nosBufferPush r size = some pool
  pull_null : ∀ size, buf.pull size = none → pool.nosBufferPull r size = some pool
  push_pull : ∀ size buf', buf.push size = some buf' → ∃ pool' pool'',
    pool.nosBufferPush r size = some pool' ∧ pool'.buffer? r = some buf' ∧
      pool'.nosBufferPull r size = some pool'' ∧ pool''.buffer? r = some buf
  pull_push : ∀ size buf', buf.pull size = some buf' → ∃ pool' pool'',
    pool.nosBufferPull r size = some pool' ∧ pool'.buffer? r = some buf' ∧
      pool'.nosBufferPush r size = some pool'' ∧ pool''.buffer? r = some buf

end NosBufferPool

namespace NosBuffer

variable {buf buf' : NosBuffer} {size headroom : ℕ}

theorem push_eq_some (h : buf.push size = some buf') : size ≤ buf.headroom ∧
    buf' = { buf with
      headroom := buf.headroom - size
      data := buf.data - size
      len := u32 (buf.len + size) } := by
  rw [push, Option.ite_none_left_eq_some, Nat.not_lt] at h
  exact ⟨h.1, (Option.some.inj h.2).symm⟩

theorem pull_eq_some (h : buf.pull size = some buf') : size ≤ buf.len ∧
    buf' = { buf with
      headroom := u32 (buf.headroom + size)
      data := buf.data + size
      len := buf.len - size } := by
  rw [pull, Option.ite_none_left_eq_some, Nat.not_lt] at h
  exact ⟨h.1, (Option.some.inj h.2).symm⟩

/-- The length grows by what the headroom gives, so it does not wrap. -/
theorem Divided.len_push (h : buf.Divided) (hsize : size ≤ buf.headroom) :
    u32 (buf.len + size) = buf.len + size := by
  have hsum := h.sum_eq
  have hlt := h.capacity_lt
  exact Nat.mod_eq_of_lt (by omega)

theorem Divided.headroom_pull (h : buf.Divided) (hsize : size ≤ buf.len) :
    u32 (buf.headroom + size) = buf.headroom + size := by
  have hsum := h.sum_eq
  have hlt := h.capacity_lt
  exact Nat.mod_eq_of_lt (by omega)

theorem Divided.push (h : buf.Divided) (hpush : buf.push size = some buf') : buf'.Divided := by
  obtain ⟨hsize, rfl⟩ := push_eq_some hpush
  have hdata := h.data_eq
  have hsum := h.sum_eq
  refine ⟨?_, ?_, h.capacity_lt⟩
  · show buf.data - size = buf.rawData + (buf.headroom - size)
    omega
  · show buf.headroom - size + u32 (buf.len + size) + buf.tailroom = buf.capacity
    rw [h.len_push hsize]
    omega

theorem Divided.pull (h : buf.Divided) (hpull : buf.pull size = some buf') : buf'.Divided := by
  obtain ⟨hsize, rfl⟩ := pull_eq_some hpull
  have hdata := h.data_eq
  have hsum := h.sum_eq
  refine ⟨?_, ?_, h.capacity_lt⟩
  · show buf.data + size = buf.rawData + u32 (buf.headroom + size)
    rw [h.headroom_pull hsize]
    omega
  · show u32 (buf.headroom + size) + (buf.len - size) + buf.tailroom = buf.capacity
    rw [h.headroom_pull hsize]
    omega

theorem Divided.pull_of_push (h : buf.Divided) (hpush : buf.push size = some buf') :
    buf'.pull size = some buf := by
  obtain ⟨hsize, rfl⟩ := push_eq_some hpush
  have hdata := h.data_eq
  have hhead : u32 (buf.headroom - size + size) = buf.headroom := by
    have hsum := h.sum_eq
    have hlt := h.capacity_lt
    rw [Nat.sub_add_cancel hsize]
    exact Nat.mod_eq_of_lt (by omega)
  rw [NosBuffer.pull, h.len_push hsize, if_neg (by simp)]
  simp only [hhead, Nat.add_sub_cancel, show buf.data - size + size = buf.data by omega]

theorem Divided.push_of_pull (h : buf.Divided) (hpull : buf.pull size = some buf') :
    buf'.push size = some buf := by
  obtain ⟨hsize, rfl⟩ := pull_eq_some hpull
  have hlen : u32 (buf.len - size + size) = buf.len := by
    have hsum := h.sum_eq
    have hlt := h.capacity_lt
    rw [Nat.sub_add_cancel hsize]
    exact Nat.mod_eq_of_lt (by omega)
  rw [NosBuffer.push, h.headroom_pull hsize, if_neg (by simp)]
  simp only [hlen, Nat.add_sub_cancel]

theorem InChunk.divided (h : buf.InChunk size headroom) (hhead : buf.headroom = headroom)
    (hlt : buf.capacity < 2 ^ 32) : buf.Divided := by
  have hfits := h.fits
  have hlen := h.len_eq
  have htail := h.tailroom_eq
  refine ⟨?_, ?_, hlt⟩
  · rw [h.data_eq, hhead]
  · omega

end NosBuffer

namespace NosBufferPool

variable {pool pool' : NosBufferPool} {r : BufferRef} {buf buf' : NosBuffer}
  {size headroom : ℕ} {config : List (ℕ × ℕ)}

theorem buffer?_setBuffer (hb : pool.buffer? r = some buf) :
    (pool.setBuffer r buf').buffer? r = some buf' := by
  obtain ⟨bin, hbin, -⟩ := Option.map_eq_some_iff.mp hb
  rw [buffer?, setBuffer, List.getElem?_modify, hbin]
  simp [NosBufferBin.setBuffer]

theorem nosBufferPush_eq (hb : pool.buffer? r = some buf) (size : ℕ) :
    pool.nosBufferPush r size = some (((buf.push size).map (pool.setBuffer r)).getD pool) := by
  rw [nosBufferPush, hb, Option.map_some, NosBuffer.push]
  split <;> rfl

theorem nosBufferPull_eq (hb : pool.buffer? r = some buf) (size : ℕ) :
    pool.nosBufferPull r size = some (((buf.pull size).map (pool.setBuffer r)).getD pool) := by
  rw [nosBufferPull, hb, Option.map_some, NosBuffer.pull]
  split <;> rfl

theorem nosBufferPush_of_push (hb : pool.buffer? r = some buf) (hpush : buf.push size = some buf') :
    pool.nosBufferPush r size = some (pool.setBuffer r buf') := by
  rw [nosBufferPush_eq hb, hpush]
  rfl

theorem nosBufferPull_of_pull (hb : pool.buffer? r = some buf) (hpull : buf.pull size = some buf') :
    pool.nosBufferPull r size = some (pool.setBuffer r buf') := by
  rw [nosBufferPull_eq hb, hpull]
  rfl

theorem windowLaw_of_divided (hb : pool.buffer? r = some buf) (h : buf.Divided) :
    pool.WindowLaw r buf where
  buffer_eq := hb
  divided := h
  push_null size hnull := by
    rw [nosBufferPush_eq hb, hnull]
    rfl
  pull_null size hnull := by
    rw [nosBufferPull_eq hb, hnull]
    rfl
  push_pull size buf' hpush :=
    have hb' := buffer?_setBuffer hb
    ⟨_, _, nosBufferPush_of_push hb hpush, hb',
      nosBufferPull_of_pull hb' (h.pull_of_push hpush), buffer?_setBuffer hb'⟩
  pull_push size buf' hpull :=
    have hb' := buffer?_setBuffer hb
    ⟨_, _, nosBufferPull_of_pull hb hpull, hb',
      nosBufferPush_of_push hb' (h.push_of_pull hpull), buffer?_setBuffer hb'⟩

/-- The buffer at an address is divided, in a chunk of a capacity. -/
def DividedAt (pool : NosBufferPool) (r : BufferRef) (rawData capacity : ℕ) : Prop :=
  ∃ buf, pool.buffer? r = some buf ∧ buf.Divided ∧ buf.rawData = rawData ∧ buf.capacity = capacity

theorem DividedAt.windowStep {rawData capacity : ℕ} (h : pool.DividedAt r rawData capacity)
    {call : WindowCall} (hstep : windowStep r pool call = some pool') :
    pool'.DividedAt r rawData capacity := by
  obtain ⟨buf, hb, hdivided, hraw, hcap⟩ := h
  cases call with
  | push size =>
    simp only [NosBufferPool.windowStep, nosBufferPush_eq hb, Option.some.injEq] at hstep
    subst hstep
    cases hpush : buf.push size with
    | none => exact ⟨buf, hb, hdivided, hraw, hcap⟩
    | some buf' =>
      refine ⟨buf', buffer?_setBuffer hb, hdivided.push hpush, ?_⟩
      obtain ⟨-, rfl⟩ := NosBuffer.push_eq_some hpush
      exact ⟨hraw, hcap⟩
  | pull size =>
    simp only [NosBufferPool.windowStep, nosBufferPull_eq hb, Option.some.injEq] at hstep
    subst hstep
    cases hpull : buf.pull size with
    | none => exact ⟨buf, hb, hdivided, hraw, hcap⟩
    | some buf' =>
      refine ⟨buf', buffer?_setBuffer hb, hdivided.pull hpull, ?_⟩
      obtain ⟨-, rfl⟩ := NosBuffer.pull_eq_some hpull
      exact ⟨hraw, hcap⟩

theorem exists_divided (h : Reachable config pool) (hsum : size + headroom < 2 ^ 32)
    (ha : pool.nosBufferAlloc size headroom = some (pool', r)) :
    ∃ buf, pool'.buffer? r = some buf ∧ buf.Divided ∧ size + headroom ≤ buf.capacity := by
  have hsize : size < 2 ^ 32 := by omega
  have hheadroom : headroom < 2 ^ 32 := by omega
  obtain ⟨buf, hb, hwindow⟩ := (window_iff_sum_lt h hsize hheadroom ha).mpr hsum
  obtain ⟨bin, hbin, -, hbuf⟩ := alloc_buffer ha
  have hsized := h.sized bin hbin
  obtain rfl := Option.some.inj (hbuf.symm.trans hb)
  refine ⟨_, hb, hwindow.divided (Nat.mod_eq_of_lt hheadroom) ?_, Nat.add_comm .. ▸ hwindow.fits⟩
  exact (hsized.capacity_eq bin.topIdx).trans_lt hsized.chunkSize_lt

/-- The window of an allocated buffer keeps its law in every run of pushes and pulls, in the chunk
that the allocation has found. -/
theorem always_windowLaw (h : Reachable config pool) (hsum : size + headroom < 2 ^ 32)
    (ha : pool.nosBufferAlloc size headroom = some (pool', r)) :
    ∃ rawData capacity, size + headroom ≤ capacity ∧ ∀ calls : List WindowCall,
      Run.Always (windowStep r)
        (fun pool => ∃ buf, pool.WindowLaw r buf ∧ buf.rawData = rawData ∧ buf.capacity = capacity)
        pool' calls := by
  obtain ⟨buf, hb, hdivided, hfits⟩ := exists_divided h hsum ha
  refine ⟨buf.rawData, buf.capacity, hfits, fun calls => ?_⟩
  refine Run.always_of_invariant (I := fun pool => pool.DividedAt r buf.rawData buf.capacity)
    (fun _ _ _ hi hs => hi.windowStep hs) ?_ ⟨buf, hb, hdivided, rfl, rfl⟩
  rintro pool ⟨buf', hb', hdivided', hraw, hcap⟩
  exact ⟨buf', windowLaw_of_divided hb' hdivided', hraw, hcap⟩

/-- A buffer of 20 bytes behind 16 bytes of headroom. -/
theorem always_windowLaw_small_request : ∃ pool' r,
    (nosBufferInitPool [] [(64, 1)]).nosBufferAlloc 20 16 = some (pool', r) ∧
    ∃ rawData capacity, 20 + 16 ≤ capacity ∧ ∀ calls : List WindowCall,
      Run.Always (windowStep r)
        (fun pool => ∃ buf, pool.WindowLaw r buf ∧ buf.rawData = rawData ∧ buf.capacity = capacity)
        pool' calls := by
  have hreach : Reachable [(64, 1)] (nosBufferInitPool [] [(64, 1)]) := Run.Reachable.refl _
  exact ⟨_, _, rfl, always_windowLaw hreach (by decide) rfl⟩

end NosBufferPool

end GeminiNOS

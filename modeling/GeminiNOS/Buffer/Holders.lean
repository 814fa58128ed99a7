import GeminiNOS.Buffer.Pool
import GeminiNOS.Foundations.IndexStack
import GeminiNOS.Foundations.References

/-! # Holders of buffers

Holders take buffers from the pool, and retain, pass on and release only what they
hold. The reference count is an atomic `int`. A release that brings it to zero puts
the chunk back in a second step, under `g_buffer_lock`; an allocation is one step
under this lock.
-/

namespace GeminiNOS

open Foundations References

namespace NosBufferBin

/-- The chunks `free_stack[0..free_top]`. -/
def freeList (bin : NosBufferBin) : List ℕ := IndexStack.entries bin.freeStack bin.freeTop

/-- An atomic addition to the `ref_cnt` of a chunk, which wraps. -/
def fetchAdd (bin : NosBufferBin) (j : ℕ) (d : ℤ) : NosBufferBin :=
  bin.setBuffer j
    { bin.buffers j with refCnt := Int.bmod ((bin.buffers j).refCnt + d) (2 ^ 32) }

def reset (bin : NosBufferBin) (j : ℕ) : NosBufferBin :=
  bin.setBuffer j
    { bin.buffers j with
      data := (bin.buffers j).rawData
      len := 0
      headroom := 0
      tailroom := (bin.buffers j).capacity }

end NosBufferBin

/-- The pool, the buffer that each agent is about to put back, the references of the agents, and
the largest `used_count` that each bin has had so far. -/
structure BufferUse (P : Type*) where
  pool : NosBufferPool
  returning : P → Option BufferRef
  holders : List (P × BufferRef)
  maxUsed : ℕ → ℕ

/-- An allocation, a retain, the atomic subtraction of a release, its locked section, and the
passing of a reference. -/
inductive BufferAction (P : Type*) where
  | alloc (p : P) (size headroom : ℕ)
  | retain (p : P) (r : BufferRef)
  | release (p : P) (r : BufferRef)
  | giveBack (p : P)
  | give (p q : P) (r : BufferRef)

namespace BufferUse

variable {P : Type*} [DecidableEq P]

def init (config : List (ℕ × ℕ)) : BufferUse P where
  pool := NosBufferPool.nosBufferInitPool [] config
  returning _ := none
  holders := []
  maxUsed _ := 0

/-- The `used_count` of a bin. -/
def usedCount (s : BufferUse P) (i : ℕ) : ℕ := (s.pool[i]?.map (·.usedCount)).getD 0

/-- Note the `used_count` of every bin. -/
def note (s : BufferUse P) : BufferUse P :=
  { s with maxUsed := fun i => max (s.maxUsed i) (s.usedCount i) }

def Holds (s : BufferUse P) (p : P) (r : BufferRef) : Prop :=
  s.returning p = none ∧ (p, r) ∈ s.holders

instance (s : BufferUse P) (p : P) (r : BufferRef) : Decidable (s.Holds p r) :=
  inferInstanceAs (Decidable (_ ∧ _))

/-- Change the `ref_cnt` of a buffer. -/
def fetchAdd (s : BufferUse P) (r : BufferRef) (d : ℤ) : BufferUse P :=
  { s with pool := s.pool.modify r.binIdx fun bin => bin.fetchAdd r.poolIdx d }

/-- The locked section of `nos_buffer_alloc`. -/
def nosBufferAlloc (s : BufferUse P) (p : P) (size headroom : ℕ) : BufferUse P :=
  (s.pool.nosBufferAlloc size headroom).elim s fun x =>
    { s with pool := x.1, holders := (p, x.2) :: s.holders }

/-- The `atomic_fetch_sub` of `nos_buffer_release`, and its test for the last reference. -/
def nosBufferRelease (s : BufferUse P) (p : P) (r : BufferRef) : BufferUse P :=
  { s.fetchAdd r (-1) with
    holders := s.holders.erase (p, r)
    returning :=
      if (s.pool.buffer? r).any fun buf => buf.refCnt = 1 then
        Function.update s.returning p (some r)
      else s.returning }

/-- The locked section of `nos_buffer_release`. -/
def giveBack (s : BufferUse P) (p : P) (r : BufferRef) (buf : NosBuffer) : BufferUse P :=
  { s with
    pool := List.modify (s.pool.modify buf.binIdx fun bin => bin.giveBack buf.poolIdx) r.binIdx
      fun bin => bin.reset r.poolIdx
    returning := Function.update s.returning p none }

/-- One step, before the note of the `used_count`. -/
def move (s : BufferUse P) : BufferAction P → Option (BufferUse P)
  | .alloc p size headroom =>
    if s.returning p = none then some (s.nosBufferAlloc p size headroom) else none
  | .retain p r =>
    if s.Holds p r then some { s.fetchAdd r 1 with holders := (p, r) :: s.holders } else none
  | .release p r => if s.Holds p r then some (s.nosBufferRelease p r) else none
  | .giveBack p =>
    (s.returning p).bind fun r => (s.pool.buffer? r).map fun buf => s.giveBack p r buf
  | .give p q r =>
    if s.Holds p r then some { s with holders := (q, r) :: s.holders.erase (p, r) } else none

def step (s : BufferUse P) (action : BufferAction P) : Option (BufferUse P) :=
  (s.move action).map note

/-- What holds of a bin: its free chunks are distinct and unheld, and its counters agree. -/
structure BinSound (s : BufferUse P) (i : ℕ) (bin : NosBufferBin) : Prop where
  distinct : bin.freeList.Nodup
  unheld : ∀ j ∈ bin.freeList, ∀ p, (p, ⟨i, j⟩) ∉ s.holders
  top_le : bin.freeTop ≤ bin.chunkCount - 1
  used_eq : (bin.usedCount : ℤ) = bin.chunkCount - (bin.freeTop + 1)
  peak_eq : bin.peakCount = s.maxUsed i

/-- The pool is sound in every bin, and an allocation returns a chunk that nobody holds. -/
def Sound (s : BufferUse P) : Prop :=
  (∀ i bin, s.pool[i]? = some bin → s.BinSound i bin) ∧
    ∀ size headroom pool r, s.pool.nosBufferAlloc size headroom = some (pool, r) →
      (∀ p, (p, r) ∉ s.holders) ∧ ∀ p, s.returning p ≠ some r

/-- A retain leaves at most `2 ^ 32` references to its buffer. -/
def CountFits (s : BufferUse P) : BufferAction P → Prop
  | .retain _ r => refs s.holders r < 2 ^ 32
  | _ => True

/-- A chunk size and count whose rounded size and whose memory are 32-bit words. -/
def FitsWord (entry : ℕ × ℕ) : Prop :=
  entry.1 + (cacheLineSize - 1) < 2 ^ 32 ∧
    (entry.1 + (cacheLineSize - 1)) / cacheLineSize * cacheLineSize * entry.2 < 2 ^ 32

instance (entry : ℕ × ℕ) : Decidable (FitsWord entry) := inferInstanceAs (Decidable (_ ∧ _))

def configBins (config : List (ℕ × ℕ)) : List (ℕ × ℕ) :=
  (config.takeWhile fun entry => entry.1 ≠ 0).take maxBins

end BufferUse

end GeminiNOS

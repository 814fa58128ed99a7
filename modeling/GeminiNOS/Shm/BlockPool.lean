import GeminiNOS.Basic
import GeminiNOS.Foundations.IndexChain
import GeminiNOS.Foundations.Run

/-! # The shared-memory block pool

Blocks are linked into a free list by their offsets. Processes take blocks from
it and push them back without a lock, so that every atomic operation of a call
is a step of its own.
-/

namespace GeminiNOS

open Foundations Run

/-- `NOS_SHM_SIZE` -/
def nosShmSize : ℕ := 16 * 1024 * 1024

/-- `sizeof(nos_shm_header_t)` -/
def sizeofNosShmHeader : ℕ := 262864

/-- `block_size` in `init_shm_pool`: header, descriptor, data and a pointer. -/
def shmBlockSize : ℕ := 16 + 48 + 4096 + 8

/-- `num_blocks` in `init_shm_pool`. -/
def shmNumBlocks : ℕ := (nosShmSize - sizeofNosShmHeader) / shmBlockSize

/-- The offset of block `i`. -/
def shmBlockOffset (i : ℕ) : ℕ := sizeofNosShmHeader + i * shmBlockSize

def IsShmBlock (offset : ℕ) : Prop := ∃ i < shmNumBlocks, offset = shmBlockOffset i

/-- Where a process stands in `nos_shm_buffer_alloc` or `nos_shm_buffer_release`: before the atomic
operation that the name says, with what it has read. -/
inductive ShmPc where
  | idle
  | allocLoad
  | allocNext (head : ℕ)
  | allocCas (head next : ℕ)
  | allocCount (blk : ℕ)
  | allocStore (blk : ℕ)
  | pushLoad (blk : ℕ)
  | pushStore (blk head : ℕ)
  | pushCas (blk head : ℕ)
  | releaseCount
  deriving DecidableEq, Repr

/-- The block that an allocation has popped and not returned yet. -/
def ShmPc.popped : ShmPc → Option ℕ
  | allocCount blk | allocStore blk => some blk
  | _ => none

def ShmPc.busy : ShmPc → Option ℕ
  | allocCount blk | allocStore blk | pushLoad blk | pushStore blk _ | pushCas blk _ => some blk
  | _ => none

/-- The shared words of the pool, and what the processes do and hold. A process is listed once for
each reference it holds. -/
structure ShmPool (P : Type*) where
  nextFree : ℕ → ℕ
  refCount : ℕ → ℕ
  freeListHead : ℕ
  totalAllocated : ℕ
  pc : P → ShmPc
  holders : List (P × ℕ)

/-- The start of a call, the passing of a reference, or the next atomic operation of a process.
The weak compare-exchange may fail without a reason. -/
inductive ShmAction (P : Type*) where
  | alloc (p : P) (size : ℕ)
  | retain (p : P) (blk : ℕ)
  | release (p : P) (blk : ℕ)
  | give (p q : P) (blk : ℕ)
  | next (p : P) (spurious : Bool)

namespace ShmPool

variable {P : Type*} [DecidableEq P]

/-- `init_shm_pool` -/
def initShmPool : ShmPool P where
  nextFree offset :=
    if offset = shmBlockOffset (shmNumBlocks - 1) then 0 else offset + shmBlockSize
  refCount _ := 0
  freeListHead := shmBlockOffset 0
  totalAllocated := 0
  pc _ := .idle
  holders := []

def setPc (s : ShmPool P) (p : P) (pc : ShmPc) : ShmPool P :=
  { s with pc := Function.update s.pc p pc }

def stepNext (s : ShmPool P) (p : P) (spurious : Bool) : Option (ShmPool P) :=
  match s.pc p with
  | .idle => none
  | .allocLoad =>
    if s.freeListHead = 0 then some (s.setPc p .idle)
    else some (s.setPc p (.allocNext s.freeListHead))
  | .allocNext head => some (s.setPc p (.allocCas head (s.nextFree head)))
  | .allocCas head next =>
    if s.freeListHead = head ∧ spurious = false then
      some ({ s with freeListHead := next }.setPc p (.allocCount head))
    else some (s.setPc p .allocLoad)
  | .allocCount blk =>
    some ({ s with totalAllocated := u32 (s.totalAllocated + 1) }.setPc p (.allocStore blk))
  | .allocStore blk =>
    some ({ s with
      refCount := Function.update s.refCount blk 1
      holders := (p, blk) :: s.holders }.setPc p .idle)
  | .pushLoad blk => some (s.setPc p (.pushStore blk s.freeListHead))
  | .pushStore blk head =>
    some ({ s with nextFree := Function.update s.nextFree blk head }.setPc p (.pushCas blk head))
  | .pushCas blk head =>
    if s.freeListHead = head ∧ spurious = false then
      some ({ s with freeListHead := blk }.setPc p .releaseCount)
    else some (s.setPc p (.pushLoad blk))
  | .releaseCount =>
    some ({ s with totalAllocated := u32 (s.totalAllocated + (2 ^ 32 - 1)) }.setPc p .idle)

/-- One step. A process starts a call only outside another, and retains, releases and passes on
only what it holds. -/
def step (s : ShmPool P) : ShmAction P → Option (ShmPool P)
  | .alloc p size =>
    if s.pc p ≠ .idle then none
    else if 4096 < size then some s
    else some (s.setPc p .allocLoad)
  | .retain p blk =>
    if s.pc p = .idle ∧ (p, blk) ∈ s.holders then
      some { s with
        refCount := Function.update s.refCount blk (u32 (s.refCount blk + 1))
        holders := (p, blk) :: s.holders }
    else none
  | .release p blk =>
    if s.pc p = .idle ∧ (p, blk) ∈ s.holders then
      some ({ s with
        refCount := Function.update s.refCount blk (u32 (s.refCount blk + (2 ^ 32 - 1)))
        holders := s.holders.erase (p, blk) }.setPc p
          (if s.refCount blk = 1 then .pushLoad blk else .idle))
    else none
  | .give p q blk =>
    if s.pc p = .idle ∧ (p, blk) ∈ s.holders then
      some { s with holders := (q, blk) :: s.holders.erase (p, blk) }
    else none
  | .next p spurious => s.stepNext p spurious

/-- What the pool is to guarantee: the free list is a list, no block on it is held, a popped block
is nobody else's, and blocks that nobody holds, pops or pushes are on it. -/
def Sound (s : ShmPool P) : Prop :=
  ∃ l, IndexChain.IsChain s.nextFree 0 s.freeListHead l ∧
    (∀ p blk, (p, blk) ∈ s.holders → blk ∉ l) ∧
    (∀ p blk, (s.pc p).popped = some blk →
      (∀ q, (q, blk) ∉ s.holders) ∧ ∀ q, (s.pc q).popped = some blk → q = p) ∧
    ∀ blk, IsShmBlock blk → (∀ p, (p, blk) ∉ s.holders) → (∀ p, (s.pc p).busy ≠ some blk) →
      blk ∈ l

/-- A pop that finds the head it has read finds the link it has read as well, and no count
overflows. -/
def LinkFresh (s : ShmPool P) : ShmAction P → Prop
  | .next p spurious => ∀ head next, s.pc p = .allocCas head next → s.freeListHead = head →
    spurious = false → s.nextFree head = next
  | .retain _ blk => s.refCount blk + 1 < 2 ^ 32
  | _ => True

end ShmPool

end GeminiNOS

import GeminiNOS.Foundations.Run
import GeminiNOS.Kv.Table

/-! # Concurrent puts and deletes

Threads that put and delete hold the lock of the bucket that they work on, from the
lookup to the end. The free stack and the counter belong to the whole table and have
no lock; every load and store of them is a step of its own.
-/

namespace GeminiNOS

open Foundations

/-- What a put has looked up before it inserts. -/
structure KvInsert where
  bucket : ℕ
  key : Bytes
  val : Option Bytes
  valLen : ℕ

/-- Where a thread stands in `nos_kv_put` or `nos_kv_del`, behind the lookup. -/
inductive KvPc where
  | idle
  | checkTop (args : KvInsert)
  | popLoad (args : KvInsert)
  | popStore (args : KvInsert) (top : ℤ)
  | popSlot (args : KvInsert) (pos : ℤ)
  | fill (args : KvInsert) (newIdx : ℕ)
  | pushLoad (b currIdx : ℕ)
  | pushStore (b currIdx : ℕ) (top : ℤ)
  | pushSlot (b currIdx : ℕ) (pos : ℤ)
  | countLoad (b : ℕ) (inserted : Bool)
  | countStore (b : ℕ) (inserted : Bool) (usedCount : ℕ)
  | unlock (b : ℕ)

def KvPc.bucket : KvPc → Option ℕ
  | idle => none
  | checkTop args | popLoad args | popStore args _ | popSlot args _ | fill args _ =>
    some args.bucket
  | pushLoad b _ | pushStore b _ _ | pushSlot b _ _ => some b
  | countLoad b _ | countStore b _ _ | unlock b => some b

/-- The position of the free stack that a thread is about to read. -/
def KvPc.popping : KvPc → Option ℤ
  | popSlot _ pos => some pos
  | _ => none

/-- The position of the free stack that a thread is about to write. -/
def KvPc.pushing : KvPc → Option ℤ
  | pushSlot _ _ pos => some pos
  | _ => none

/-- A call of a thread. -/
inductive KvSlotCall where
  | put (key : Bytes) (val : Option Bytes) (valLen : ℕ)
  | del (key : Bytes)

def KvSlotCall.key : KvSlotCall → Bytes
  | put key _ _ | del key => key

def KvSlotCall.valLen : KvSlotCall → ℕ
  | put _ _ valLen => valLen
  | del _ => 0

/-- The steps of a thread: it makes a call when it has none, or goes on with its call. -/
inductive KvAction (P : Type*) where
  | call (p : P) (call : KvSlotCall)
  | next (p : P)

/-- A table, the owners of the bucket locks, and the threads. -/
structure KvShared (P : Type*) where
  table : NosKvTable
  lockOwner : ℕ → Option P
  pc : P → KvPc

namespace NosKvTable

/-- The part of an insertion behind the free stack: the record is written and linked. -/
def linkNew (table : NosKvTable) (args : KvInsert) (newIdx : ℕ) : NosKvTable :=
  let data := memcpyAt (table.getEntry newIdx).data 0 (args.key.take table.keySize)
  let bucket := table.buckets args.bucket
  { table.setEntry newIdx
      { nextIdx := bucket.firstIdx
        valLen := args.valLen
        subList := []
        data := table.storeVal data args.val args.valLen } with
    buckets := Function.update table.buckets args.bucket { bucket with firstIdx := newIdx } }

/-- The part of a deletion before the free stack: the record is unlinked, without subscribers. -/
def detach (table : NosKvTable) (b prevIdx currIdx : ℕ) : NosKvTable :=
  (table.unlink b prevIdx currIdx).setSubList currIdx []

def countedFrom (usedCount : ℕ) (inserted : Bool) : ℕ :=
  if inserted then u32 (usedCount + 1) else u32 (usedCount + (2 ^ 32 - 1))

end NosKvTable

namespace KvShared

variable {P : Type*} [DecidableEq P]

def Quiescent (s : KvShared P) : Prop := ∀ p, s.pc p = .idle

def init (table : NosKvTable) : KvShared P := ⟨table, fun _ => none, fun _ => .idle⟩

def setPc (s : KvShared P) (p : P) (pc : KvPc) : KvShared P :=
  { s with pc := Function.update s.pc p pc }

def setTable (s : KvShared P) (p : P) (table : NosKvTable) (pc : KvPc) : KvShared P :=
  { s with table := table, pc := Function.update s.pc p pc }

def lock (s : KvShared P) (p : P) (b : ℕ) (table : NosKvTable) (pc : KvPc) : KvShared P where
  table := table
  lockOwner := Function.update s.lockOwner b (some p)
  pc := Function.update s.pc p pc

def release (s : KvShared P) (p : P) (b : ℕ) : KvShared P where
  table := s.table
  lockOwner := Function.update s.lockOwner b none
  pc := Function.update s.pc p .idle

/-- The part of a call up to the lookup; a put on a live key needs no more than that. The bucket
has to be free, and the key has the key size of the table. -/
def enter (s : KvShared P) (p : P) (b : ℕ) : KvSlotCall → Option (KvShared P)
  | .put key val valLen =>
    match s.table.lookup b key with
    | .endless => none
    | .found _ currIdx => some { s with table := s.table.overwrite currIdx val valLen }
    | .absent => some (s.lock p b s.table (.checkTop ⟨b, key, val, valLen⟩))
  | .del key =>
    match s.table.lookup b key with
    | .endless => none
    | .found prevIdx currIdx =>
      some (s.lock p b (s.table.detach b prevIdx currIdx) (.pushLoad b currIdx))
    | .absent => some s

/-- The next step of a thread that stands at `pc`. Accesses below the free stack are undefined. -/
def next (s : KvShared P) (p : P) : KvPc → Option (KvShared P)
  | .idle => none
  | .checkTop args =>
    some (s.setPc p (if s.table.freeTop < 0 then .unlock args.bucket else .popLoad args))
  | .popLoad args => some (s.setPc p (.popStore args s.table.freeTop))
  | .popStore args top =>
    some (s.setTable p { s.table with freeTop := top - 1 } (.popSlot args top))
  | .popSlot args pos =>
    if pos < 0 then none else some (s.setPc p (.fill args (s.table.freeStack pos.toNat)))
  | .fill args newIdx =>
    some (s.setTable p (s.table.linkNew args newIdx) (.countLoad args.bucket true))
  | .pushLoad b currIdx => some (s.setPc p (.pushStore b currIdx s.table.freeTop))
  | .pushStore b currIdx top =>
    some (s.setTable p { s.table with freeTop := top + 1 } (.pushSlot b currIdx (top + 1)))
  | .pushSlot b currIdx pos =>
    if pos < 0 then none
    else some (s.setTable p
      { s.table with freeStack := Function.update s.table.freeStack pos.toNat currIdx }
      (.countLoad b false))
  | .countLoad b inserted => some (s.setPc p (.countStore b inserted s.table.usedCount))
  | .countStore b inserted usedCount =>
    some (s.setTable p
      { s.table with usedCount := NosKvTable.countedFrom usedCount inserted } (.unlock b))
  | .unlock b => some (s.release p b)

/-- One step. A call waits while its bucket is locked. -/
def step (s : KvShared P) : KvAction P → Option (KvShared P)
  | .call p call =>
    match s.pc p with
    | .idle =>
      if s.table.maxValSize < call.valLen then some s
      else if call.key.length ≠ s.table.keySize then none
      else
        (s.table.bucketOf call.key).bind fun b =>
          if (s.lockOwner b).isSome ∨ 0 < (s.table.buckets b).readers then none
          else s.enter p b call
    | _ => none
  | .next p => s.next p (s.pc p)

/-- The conditions on the steps. Whoever stores `free_top` or `used_count` stores what follows from
its current value, and a put does not store a negative top away. Nobody passes a position of the
free stack while another thread that has passed it still has to access it. -/
def Fits (s : KvShared P) : KvAction P → Prop
  | .call _ _ => True
  | .next p =>
    match s.pc p with
    | .popStore _ top =>
      s.table.freeTop = top ∧ 0 ≤ top ∧ ∀ q, (s.pc q).pushing ≠ some top
    | .pushStore _ _ top =>
      s.table.freeTop = top ∧ ∀ q, (s.pc q).popping ≠ some (top + 1)
    | .countStore _ _ usedCount => s.table.usedCount = usedCount
    | _ => True

end KvShared

end GeminiNOS

import GeminiNOS.Foundations.Total
import GeminiNOS.Kv.Concurrent
import GeminiNOS.Kv.Invariant
import Mathlib.Data.List.Perm.Basic

/-! # The locks of the buckets

Threads call the operations of a table, also from inside the callbacks that a put
makes, so that the operations of a thread form a stack. An operation notes each
lock that it takes and gives back. What a successful `nos_kv_get_ptr` holds goes
with its handle.
-/

namespace GeminiNOS

open Foundations

/-- A call with its arguments. A null pointer is `none`, or `false` where only its absence matters;
the handle gets an address from the allocator. -/
inductive KvLockCall where
  | put (key : Option Bytes) (val : Option Bytes) (valLen : ℕ)
  | get (key : Option Bytes) (valBuf : Bool) (valLen : Option ℕ)
  | getPtr (key : Option Bytes) (outPtr outLen outHandle : Bool) (addr : ℕ)
  | releasePtr (handle : Option ℕ)
  | subscribe (key : Option Bytes) (sub : NosKvSub)
  | unsubscribe (key : Option Bytes) (sub : NosKvSub)
  | del (key : Option Bytes)

/-- A hold on the lock of a bucket. -/
inductive KvHold where
  | read (b : ℕ)
  | write (b : ℕ)
  deriving DecidableEq

/-- The status of an operation, with the bytes and the length that a read gives out. -/
structure KvOutcome where
  st : NosStatus
  out : Option (Bytes × ℕ)

/-- Where an operation stands: before its lock, on a record of the chain, behind the lookup of a put
or a delete, before it gives the lock back, and outside, with callbacks to make. -/
inductive KvLockPc where
  | start
  | lock (b : ℕ) (key : Bytes)
  | walk (b : ℕ) (key : Bytes) (prevIdx currIdx : ℕ)
  | work (pc : KvPc)
  | unlock (b : ℕ) (result : KvOutcome) (notified : List KvNotification)
  | outside (result : KvOutcome) (pending : List KvNotification)
  | callback (result : KvOutcome) (pending : List KvNotification)

/-- An operation in progress, with the locks that it has taken and not given back. -/
structure KvFrame where
  call : KvLockCall
  pc : KvLockPc
  held : List KvHold

/-- A handle `nos_kv_lock_handle_t` at its address, with the record, the bytes and the length that
came with it. -/
structure KvHandle where
  addr : ℕ
  lock : ℕ
  idx : ℕ
  bytes : Bytes
  len : ℕ
  deriving DecidableEq

/-- An operation that has returned, with the locks that it has not given back. -/
structure KvReturn where
  call : KvLockCall
  result : KvOutcome
  held : List KvHold

/-- A thread makes a call, outside of all operations or inside a callback; or it goes on. -/
inductive KvLockAction (P : Type*) where
  | call (p : P) (call : KvLockCall)
  | next (p : P)

/-- A table, the owners of the write locks, the operations in progress, the innermost one first, and
the live handles. Beside them all handles given out and all given up, and the operations that have
returned. -/
structure KvLocking (P : Type*) where
  table : NosKvTable
  writer : ℕ → Option P
  frames : P → List KvFrame
  handles : List KvHandle
  granted : List KvHandle
  released : List KvHandle
  returned : List KvReturn

namespace KvLockCall

def checked (maxValSize : ℕ) : KvLockCall → Option Bytes
  | put key _ valLen => if maxValSize < valLen then none else key
  | get key valBuf valLen => if valBuf ∧ valLen.isSome then key else none
  | getPtr key outPtr outLen outHandle _ => if outPtr ∧ outLen ∧ outHandle then key else none
  | releasePtr _ => none
  | subscribe key sub | unsubscribe key sub => if sub.notify = 0 then none else key
  | del key => key

def writes : KvLockCall → Bool
  | get _ _ _ | getPtr _ _ _ _ _ | releasePtr _ => false
  | put _ _ _ | subscribe _ _ | unsubscribe _ _ | del _ => true

def hold (call : KvLockCall) (b : ℕ) : KvHold := if call.writes then .write b else .read b

end KvLockCall

def KvLockPc.bucket : KvLockPc → Option ℕ
  | walk b _ _ _ | unlock b _ _ => some b
  | work pc => pc.bucket
  | start | lock _ _ | outside _ _ | callback _ _ => none

def KvLockPc.inCallback : KvLockPc → Bool
  | callback _ _ => true
  | _ => false

/-- Where a put or a delete stands behind its lookup. -/
def KvLockPc.slot : KvLockPc → KvPc
  | work pc => pc
  | _ => .idle

/-- Behind its lookup a put fails without a free record; the rest succeeds. -/
def KvLockPc.afterWork (pc : KvPc) : KvPc → KvLockPc
  | .unlock b =>
    match pc with
    | .checkTop _ => unlock b ⟨.errBusy, none⟩ []
    | _ => unlock b ⟨.ok, none⟩ []
  | pc' => work pc'

namespace KvLocking

variable {P : Type*} [DecidableEq P]

def start (table : NosKvTable) : KvLocking P := ⟨table, fun _ => none, fun _ => [], [], [], [], []⟩

def shared (s : KvLocking P) : KvShared P where
  table := s.table
  lockOwner := s.writer
  pc p := ((s.frames p).head?.map fun f => f.pc.slot).getD .idle

/-- The innermost operation of a thread goes on, and writes the table. -/
def go (s : KvLocking P) (p : P) (f : KvFrame) (rest : List KvFrame) (table : NosKvTable)
    (pc : KvLockPc) : KvLocking P :=
  { s with table := table, frames := Function.update s.frames p ({ f with pc := pc } :: rest) }

/-- The check of the arguments. A handle is given up at once: its lock, and then its memory. -/
def check (s : KvLocking P) (p : P) (f : KvFrame) (rest : List KvFrame) : Option (KvLocking P) :=
  match f.call with
  | .releasePtr none => some (s.go p f rest s.table (.outside ⟨.ok, none⟩ []))
  | .releasePtr (some addr) =>
    (s.handles.find? fun h => h.addr = addr).map fun h =>
      { s with
        table := s.table.setReaders h.lock ((s.table.buckets h.lock).readers - 1)
        frames := Function.update s.frames p ({ f with pc := .outside ⟨.ok, none⟩ [] } :: rest)
        handles := s.handles.erase h
        released := h :: s.released }
  | call =>
    match call.checked s.table.maxValSize with
    | none => some (s.go p f rest s.table (.outside ⟨.err, none⟩ []))
    | some key =>
      if key.length ≠ s.table.keySize then none
      else (s.table.bucketOf key).map fun b => s.go p f rest s.table (.lock b key)

/-- The lock of the bucket is taken as soon as it is free, and the chain is entered. -/
def lock (s : KvLocking P) (p : P) (f : KvFrame) (rest : List KvFrame) (b : ℕ) (key : Bytes) :
    Option (KvLocking P) :=
  let bucket := s.table.buckets b
  let frame : KvFrame :=
    ⟨f.call, .walk b key kvInvalidIdx bucket.firstIdx, f.call.hold b :: f.held⟩
  if f.call.writes then
    if s.writer b = none ∧ bucket.readers = 0 then
      some { s with
        writer := Function.update s.writer b (some p)
        frames := Function.update s.frames p (frame :: rest) }
    else none
  else
    if s.writer b = none then
      some { s with
        table := s.table.setReaders b (bucket.readers + 1)
        frames := Function.update s.frames p (frame :: rest) }
    else none

def absent (s : KvLocking P) (p : P) (f : KvFrame) (rest : List KvFrame) (b : ℕ) (key : Bytes) :
    Option (KvLocking P) :=
  match f.call with
  | .put _ val valLen => some (s.go p f rest s.table (.work (.checkTop ⟨b, key, val, valLen⟩)))
  | .releasePtr _ => none
  | _ => some (s.go p f rest s.table (.unlock b ⟨.err, none⟩ []))

/-- The record with the key. A successful `nos_kv_get_ptr` returns with its lock. -/
def found (s : KvLocking P) (p : P) (f : KvFrame) (rest : List KvFrame) (b prevIdx currIdx : ℕ) :
    Option (KvLocking P) :=
  let entry := s.table.getEntry currIdx
  match f.call with
  | .put _ val valLen =>
    some (s.go p f rest (s.table.overwrite currIdx val valLen) (.unlock b ⟨.ok, none⟩
      (entry.subList.map fun sub => ⟨sub.notify, val, valLen, sub.arg⟩)))
  | .get _ _ valLen =>
    let copyLen := min (valLen.getD 0) entry.valLen
    some (s.go p f rest s.table (.unlock b
      ⟨.ok, some ((entry.data.drop s.table.keySize).take copyLen, entry.valLen)⟩ []))
  | .getPtr _ _ _ _ addr =>
    let h : KvHandle := ⟨addr, b, currIdx, s.table.valueAt currIdx, entry.valLen⟩
    if ∃ h' ∈ s.handles, h'.addr = addr then none
    else
      some { s with
        frames := Function.update s.frames p rest
        handles := h :: s.handles
        granted := h :: s.granted
        returned := ⟨f.call, ⟨.ok, some (h.bytes, h.len)⟩, f.held⟩ :: s.returned }
  | .releasePtr _ => none
  | .subscribe _ sub =>
    if sub ∈ entry.subList then some (s.go p f rest s.table (.unlock b ⟨.ok, none⟩ []))
    else
      some (s.go p f rest (s.table.setSubList currIdx (sub :: entry.subList))
        (.unlock b ⟨.ok, none⟩ []))
  | .unsubscribe _ sub =>
    if sub ∈ entry.subList then
      some (s.go p f rest (s.table.setSubList currIdx (entry.subList.erase sub))
        (.unlock b ⟨.ok, none⟩ []))
    else some (s.go p f rest s.table (.unlock b ⟨.err, none⟩ []))
  | .del _ =>
    some (s.go p f rest (s.table.detach b prevIdx currIdx) (.work (.pushLoad b currIdx)))

def unlock (s : KvLocking P) (p : P) (f : KvFrame) (rest : List KvFrame) (b : ℕ)
    (result : KvOutcome) (notified : List KvNotification) : KvLocking P :=
  let frame : KvFrame := ⟨f.call, .outside result notified, f.held.erase (f.call.hold b)⟩
  if f.call.writes then
    { s with
      writer := Function.update s.writer b none
      frames := Function.update s.frames p (frame :: rest) }
  else
    { s with
      table := s.table.setReaders b ((s.table.buckets b).readers - 1)
      frames := Function.update s.frames p (frame :: rest) }

def next (s : KvLocking P) (p : P) (f : KvFrame) (rest : List KvFrame) : Option (KvLocking P) :=
  match f.pc with
  | .start => s.check p f rest
  | .lock b key => s.lock p f rest b key
  | .walk b key prevIdx currIdx =>
    if currIdx = kvInvalidIdx then s.absent p f rest b key
    else if s.table.KeyMatches (s.table.getEntry currIdx) key then
      s.found p f rest b prevIdx currIdx
    else some (s.go p f rest s.table (.walk b key currIdx (s.table.getEntry currIdx).nextIdx))
  | .work (.unlock _) => none
  | .work pc => (s.shared.next p pc).map fun t => s.go p f rest t.table (.afterWork pc (t.pc p))
  | .unlock b result notified => some (s.unlock p f rest b result notified)
  | .outside result [] =>
    some { s with
      frames := Function.update s.frames p rest
      returned := ⟨f.call, result, f.held⟩ :: s.returned }
  | .outside result (_ :: pending) => some (s.go p f rest s.table (.callback result pending))
  | .callback result pending => some (s.go p f rest s.table (.outside result pending))

/-- One step. An operation is called outside of all others, or inside a callback. -/
def step (s : KvLocking P) : KvLockAction P → Option (KvLocking P)
  | .call p call =>
    if ∀ f ∈ (s.frames p).head?, f.pc.inCallback then
      some { s with frames := Function.update s.frames p (⟨call, .start, []⟩ :: s.frames p) }
    else none
  | .next p =>
    match s.frames p with
    | [] => none
    | f :: rest => s.next p f rest

end KvLocking

end GeminiNOS

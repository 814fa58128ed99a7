import GeminiNOS.Basic
import GeminiNOS.Kv.Hash

/-! # Key-value tables

A table keeps its entries in a pool of fixed-size records. Each bucket heads a
chain of records linked by index, and the indices of unused records lie on a
free stack. Records are addressed by the 32-bit byte offset that `get_entry`
computes; the byte ranges of different records are not to overlap.
-/

namespace GeminiNOS

/-- `KV_INVALID_IDX` -/
def kvInvalidIdx : ℕ := 0xFFFFFFFF

/-- `sizeof(nos_kv_entry_t)` -/
def sizeofNosKvEntry : ℕ := 16

/-- `MAX_TABLES` -/
def maxTables : ℕ := 32

/-- A subscriber node `nos_kv_sub_t`. -/
structure NosKvSub where
  notify : ℕ
  arg : ℕ
  deriving DecidableEq, Repr

/-- A pool record `nos_kv_entry_t`; `data` holds the key bytes and behind them the value bytes. -/
structure NosKvEntry where
  nextIdx : ℕ
  valLen : ℕ
  subList : List NosKvSub
  data : Bytes
  deriving DecidableEq, Repr

/-- A hash bucket, with the number of read holds on its lock. -/
structure NosKvBucket where
  readers : ℕ
  firstIdx : ℕ
  deriving DecidableEq, Repr

/-- The table context `nos_kv_table`. -/
structure NosKvTable where
  name : Bytes
  keySize : ℕ
  maxValSize : ℕ
  entrySize : ℕ
  capacity : ℕ
  buckets : ℕ → NosKvBucket
  bucketCount : ℕ
  poolMem : ℕ → NosKvEntry
  freeStack : ℕ → ℕ
  freeTop : ℤ
  usedCount : ℕ

/-- A call of a subscriber's callback. -/
structure KvNotification where
  notify : ℕ
  val : Option Bytes
  valLen : ℕ
  arg : ℕ
  deriving DecidableEq, Repr

/-- `memcpy` of the bytes `src` to an offset in `data`. -/
def memcpyAt (data : Bytes) (offset : ℕ) (src : Bytes) : Bytes :=
  data.take offset ++ src ++ data.drop (offset + src.length)

/-- The loop that doubles `bucket_count` up to the capacity. Past 32 rounds the count is zero and
the loop does not end. -/
def sizeBuckets (capacity : ℕ) : ℕ → ℕ → Option ℕ
  | 0, _ => none
  | rounds + 1, bucketCount =>
    if bucketCount < capacity then sizeBuckets capacity rounds (u32 (bucketCount <<< 1))
    else some bucketCount

/-- The second part of `nos_kv_table_create`, which builds a new table. -/
def newTable (name : Bytes) (keySize maxValSize capacity : ℕ) : Option NosKvTable :=
  (sizeBuckets capacity 33 1024).map fun bucketCount =>
    let entrySize := u32 (sizeofNosKvEntry + keySize + maxValSize)
    { name := name.take 31
      keySize := keySize
      maxValSize := maxValSize
      entrySize := entrySize
      capacity := capacity
      buckets := fun _ => ⟨0, kvInvalidIdx⟩
      bucketCount := bucketCount
      poolMem := fun _ => ⟨0, 0, [], List.replicate (entrySize - sizeofNosKvEntry) 0⟩
      freeStack := fun i => i
      freeTop := (capacity : ℤ) - 1
      usedCount := 0 }

/-- `nos_kv_table_create` on the registered tables; the handle of a table is its position. The
allocation of the context may fail, and no result means that the sizing loop does not end. -/
def nosKvTableCreate (tables : List NosKvTable) (name : Bytes)
    (keySize maxValSize capacity : ℕ) (memory : Bool) : Option (List NosKvTable × Option ℕ) :=
  if keySize = 0 ∨ capacity = 0 then some (tables, none) else
    match tables.findIdx? fun t => t.name = name with
    | some i => some (tables, some i)
    | none =>
      if maxTables ≤ tables.length ∨ memory = false then some (tables, none) else
        (newTable name keySize maxValSize capacity).map fun table =>
          (tables ++ [table], some tables.length)

namespace NosKvTable

/-- The byte offset that `get_entry` adds to `pool_mem`. -/
def entryOffset (table : NosKvTable) (idx : ℕ) : ℕ := u32 (idx * table.entrySize)

/-- The record behind `get_entry`, for a valid index. -/
def getEntry (table : NosKvTable) (idx : ℕ) : NosKvEntry := table.poolMem (table.entryOffset idx)

def setEntry (table : NosKvTable) (idx : ℕ) (entry : NosKvEntry) : NosKvTable :=
  { table with poolMem := Function.update table.poolMem (table.entryOffset idx) entry }

/-- The bucket of a key, provided that the hash gets a result. -/
def bucketOf (table : NosKvTable) (key : Bytes) : Option ℕ :=
  (murmurhash3_32 key (int32 table.keySize) 0).map fun hash => hash.toNat % table.bucketCount

/-- `memcmp(entry->data, key, key_size) == 0` -/
def KeyMatches (table : NosKvTable) (entry : NosKvEntry) (key : Bytes) : Prop :=
  entry.data.take table.keySize = key.take table.keySize

instance (table : NosKvTable) (entry : NosKvEntry) (key : Bytes) :
    Decidable (table.KeyMatches entry key) := inferInstanceAs (Decidable (_ = _))

/-- Where the walk along a bucket's chain ends. -/
inductive Walk where
  | found (prevIdx currIdx : ℕ)
  | absent
  | endless
  deriving DecidableEq, Repr

/-- The loop over a chain that all operations share. An acyclic chain ends within as many rounds
as there are records. -/
def walk (table : NosKvTable) (key : Bytes) : ℕ → ℕ → ℕ → Walk
  | 0, _, _ => .endless
  | rounds + 1, prevIdx, currIdx =>
    if currIdx = kvInvalidIdx then .absent
    else if table.KeyMatches (table.getEntry currIdx) key then .found prevIdx currIdx
    else table.walk key rounds currIdx (table.getEntry currIdx).nextIdx

def lookup (table : NosKvTable) (b : ℕ) (key : Bytes) : Walk :=
  table.walk key (table.capacity + 1) kvInvalidIdx (table.buckets b).firstIdx

/-! No result of an operation means that the call does not return: it waits for a lock that a read
hold keeps, its walk does not end, or it leaves the key while hashing it. -/

/-- What `nos_kv_put` stores behind the key. -/
def storeVal (table : NosKvTable) (data : Bytes) (val : Option Bytes) (valLen : ℕ) : Bytes :=
  match val with
  | some val => memcpyAt data table.keySize (val.take valLen)
  | none => data

/-- The branch of `nos_kv_put` that writes to the record of a live key. -/
def overwrite (table : NosKvTable) (currIdx : ℕ) (val : Option Bytes) (valLen : ℕ) : NosKvTable :=
  let entry := table.getEntry currIdx
  table.setEntry currIdx
    { entry with data := table.storeVal entry.data val valLen, valLen := valLen }

/-- The branch of `nos_kv_put` that takes a record from the free stack. -/
def insertNew (table : NosKvTable) (b : ℕ) (key : Bytes) (val : Option Bytes) (valLen : ℕ) :
    NosKvTable :=
  let newIdx := table.freeStack table.freeTop.toNat
  let data := memcpyAt (table.getEntry newIdx).data 0 (key.take table.keySize)
  let bucket := table.buckets b
  { table.setEntry newIdx
      { nextIdx := bucket.firstIdx
        valLen := valLen
        subList := []
        data := table.storeVal data val valLen } with
    freeTop := table.freeTop - 1
    buckets := Function.update table.buckets b { bucket with firstIdx := newIdx }
    usedCount := u32 (table.usedCount + 1) }

/-- `nos_kv_put`, with the callbacks it makes after it has unlocked the bucket. -/
def nosKvPut (table : NosKvTable) (key : Bytes) (val : Option Bytes) (valLen : ℕ) :
    Option (NosStatus × NosKvTable × List KvNotification) :=
  if table.maxValSize < valLen then some (.err, table, [])
  else
    (table.bucketOf key).bind fun b =>
      if 0 < (table.buckets b).readers then none
      else
        match table.lookup b key with
        | .endless => none
        | .found _ currIdx =>
          some (.ok, table.overwrite currIdx val valLen,
            (table.getEntry currIdx).subList.map fun sub => ⟨sub.notify, val, valLen, sub.arg⟩)
        | .absent =>
          if table.freeTop < 0 then some (.errBusy, table, [])
          else some (.ok, table.insertNew b key val valLen, [])

/-- `nos_kv_get` into a buffer of `valLen` bytes: the bytes copied and the new `*val_len`. -/
def nosKvGet (table : NosKvTable) (key : Bytes) (valLen : ℕ) : Option (NosStatus × Bytes × ℕ) :=
  (table.bucketOf key).bind fun b =>
    match table.lookup b key with
    | .endless => none
    | .found _ currIdx =>
      let entry := table.getEntry currIdx
      let copyLen := if valLen < entry.valLen then valLen else entry.valLen
      some (.ok, (entry.data.drop table.keySize).take copyLen, entry.valLen)
    | .absent => some (.err, [], valLen)

def setReaders (table : NosKvTable) (b readers : ℕ) : NosKvTable :=
  { table with
    buckets := Function.update table.buckets b { table.buckets b with readers := readers } }

/-- `nos_kv_get_ptr`: the bytes behind the pointer, their number, and the bucket whose lock the
handle keeps. -/
def nosKvGetPtr (table : NosKvTable) (key : Bytes) :
    Option (NosStatus × NosKvTable × Option (Bytes × ℕ × ℕ)) :=
  (table.bucketOf key).bind fun b =>
    match table.lookup b key with
    | .endless => none
    | .found _ currIdx =>
      let entry := table.getEntry currIdx
      some (.ok, table.setReaders b ((table.buckets b).readers + 1),
        some ((entry.data.drop table.keySize).take entry.valLen, entry.valLen, b))
    | .absent => some (.err, table, none)

/-- `nos_kv_release_ptr` on the handle for a bucket; undefined on one that is not held. -/
def nosKvReleasePtr (table : NosKvTable) (handle : ℕ) : Option NosKvTable :=
  if (table.buckets handle).readers = 0 then none
  else some (table.setReaders handle ((table.buckets handle).readers - 1))

/-- Take a record out of its chain, as `nos_kv_del` does. -/
def unlink (table : NosKvTable) (b prevIdx currIdx : ℕ) : NosKvTable :=
  let entry := table.getEntry currIdx
  if prevIdx = kvInvalidIdx then
    { table with
      buckets := Function.update table.buckets b
        { table.buckets b with firstIdx := entry.nextIdx } }
  else table.setEntry prevIdx { table.getEntry prevIdx with nextIdx := entry.nextIdx }

/-- Free the subscribers of an unlinked record and put its index on the free stack. -/
def reclaim (table : NosKvTable) (currIdx : ℕ) : NosKvTable :=
  { table.setEntry currIdx { table.getEntry currIdx with subList := [] } with
    freeTop := table.freeTop + 1
    freeStack := Function.update table.freeStack (table.freeTop + 1).toNat currIdx
    usedCount := u32 (table.usedCount + (2 ^ 32 - 1)) }

/-- The branch of `nos_kv_del` that removes a record. -/
def delete (table : NosKvTable) (b prevIdx currIdx : ℕ) : NosKvTable :=
  (table.unlink b prevIdx currIdx).reclaim currIdx

/-- `nos_kv_del` -/
def nosKvDel (table : NosKvTable) (key : Bytes) : Option (NosStatus × NosKvTable) :=
  (table.bucketOf key).bind fun b =>
    if 0 < (table.buckets b).readers then none
    else
      match table.lookup b key with
      | .endless => none
      | .absent => some (.err, table)
      | .found prevIdx currIdx => some (.ok, table.delete b prevIdx currIdx)

def setSubList (table : NosKvTable) (currIdx : ℕ) (subList : List NosKvSub) : NosKvTable :=
  table.setEntry currIdx { table.getEntry currIdx with subList := subList }

/-- `nos_kv_subscribe`; the null callback is `0`. -/
def nosKvSubscribe (table : NosKvTable) (key : Bytes) (sub : NosKvSub) :
    Option (NosStatus × NosKvTable) :=
  if sub.notify = 0 then some (.err, table)
  else
    (table.bucketOf key).bind fun b =>
      if 0 < (table.buckets b).readers then none
      else
        match table.lookup b key with
        | .endless => none
        | .absent => some (.err, table)
        | .found _ currIdx =>
          let subList := (table.getEntry currIdx).subList
          if sub ∈ subList then some (.ok, table)
          else some (.ok, table.setSubList currIdx (sub :: subList))

/-- `nos_kv_unsubscribe` -/
def nosKvUnsubscribe (table : NosKvTable) (key : Bytes) (sub : NosKvSub) :
    Option (NosStatus × NosKvTable) :=
  if sub.notify = 0 then some (.err, table)
  else
    (table.bucketOf key).bind fun b =>
      if 0 < (table.buckets b).readers then none
      else
        match table.lookup b key with
        | .endless => none
        | .absent => some (.err, table)
        | .found _ currIdx =>
          let subList := (table.getEntry currIdx).subList
          if sub ∈ subList then some (.ok, table.setSubList currIdx (subList.erase sub))
          else some (.err, table)

end NosKvTable

end GeminiNOS

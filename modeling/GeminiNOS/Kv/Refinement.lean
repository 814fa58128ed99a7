import GeminiNOS.Foundations.BoundedMap
import GeminiNOS.Kv.Operations

/-! # Tables refine bounded maps

A sequence of calls on a table is compared with the same sequence on a map from
key bytes to value bytes that has room for as many keys as the table has records.
-/

namespace GeminiNOS

open Foundations

/-- A call on a table. A release takes the handle of a bucket, as `nos_kv_get_ptr` returns it. -/
inductive KvCall where
  | put (key val : Bytes)
  | get (key : Bytes) (room : ℕ)
  | getPtr (key : Bytes)
  | releasePtr (handle : ℕ)
  | del (key : Bytes)

/-- What a call reports to its caller. -/
inductive KvResult where
  | status (status : NosStatus)
  | copied (status : NosStatus) (bytes : Bytes) (valLen : ℕ)
  | exposed (bytes : Bytes) (valLen : ℕ)
  | released
  deriving DecidableEq, Repr

def KvCall.KeySized (keySize : ℕ) : KvCall → Prop
  | put key _ | get key _ | getPtr key | del key => key.length = keySize
  | releasePtr _ => True

def mapStep {capacity : ℕ} (maxValSize : ℕ) (m : BoundedMap Bytes Bytes capacity) :
    KvCall → KvResult × BoundedMap Bytes Bytes capacity
  | .put key val =>
    if maxValSize < val.length then (.status .err, m)
    else if hlive : (m.find key).isSome then (.status .ok, m.set key val (Or.inl hlive))
    else if hfull : m.Full then (.status .errBusy, m)
    else (.status .ok, m.set key val (Or.inr hfull))
  | .get key room =>
    match m.find key with
    | some val => (.copied .ok (val.take (min room val.length)) val.length, m)
    | none => (.copied .err [] room, m)
  | .getPtr key =>
    match m.find key with
    | some val => (.exposed val val.length, m)
    | none => (.status .err, m)
  | .releasePtr _ => (.released, m)
  | .del key => if (m.find key).isSome then (.status .ok, m.erase key) else (.status .err, m)

namespace NosKvTable

def kvStep (table : NosKvTable) : KvCall → Option (KvResult × NosKvTable)
  | .put key val =>
    (table.nosKvPut key (some val) val.length).map fun r => (.status r.1, r.2.1)
  | .get key room =>
    (table.nosKvGet key room).map fun r => (.copied r.1 r.2.1 r.2.2, table)
  | .getPtr key =>
    (table.nosKvGetPtr key).map fun r =>
      (match r.2.2 with
        | some (bytes, valLen, _) => .exposed bytes valLen
        | none => .status r.1, r.2.1)
  | .releasePtr handle => (table.nosKvReleasePtr handle).map fun table' => (.released, table')
  | .del key => (table.nosKvDel key).map fun r => (.status r.1, r.2)

/-- The call need not wait for a read hold on its bucket, and releases only what is held. -/
def Ready (table : NosKvTable) : KvCall → Prop
  | .put key val => val.length ≤ table.maxValSize →
    ∀ b, table.bucketOf key = some b → (table.buckets b).readers = 0
  | .del key => ∀ b, table.bucketOf key = some b → (table.buckets b).readers = 0
  | .releasePtr handle => (table.buckets handle).readers ≠ 0
  | .get _ _ | .getPtr _ => True

/-- Each call, as long as it is ready, returns what the map returns. -/
def Agrees {capacity : ℕ} (table : NosKvTable) (m : BoundedMap Bytes Bytes capacity) :
    List KvCall → Prop
  | [] => True
  | call :: calls => table.Ready call → ∃ table',
      table.kvStep call = some ((mapStep table.maxValSize m call).1, table') ∧
        table'.Agrees (mapStep table.maxValSize m call).2 calls

/-- All sequences of calls agree with the map that starts empty. -/
def RefinesMap (table : NosKvTable) : Prop :=
  ∀ calls : List KvCall, (∀ call ∈ calls, call.KeySized table.keySize) →
    table.Agrees (BoundedMap.empty : BoundedMap Bytes Bytes table.capacity) calls

variable {table : NosKvTable} {chain : ℕ → List ℕ} {key val : Bytes} {capacity keySize room b : ℕ}
  {m : BoundedMap Bytes Bytes capacity}

/-- The map holds what the table stores, and has as much room. -/
structure Represents (table : NosKvTable) (keySize : ℕ) (chain : ℕ → List ℕ)
    (m : BoundedMap Bytes Bytes capacity) : Prop where
  inv : table.Inv chain
  find_iff : ∀ key val, m.find key = some val ↔ table.Stores chain key val
  card_eq : (m.live.card : ℤ) + (table.freeTop + 1) = capacity
  keySize_eq : table.keySize = keySize
  keySize_lt : keySize < 2 ^ 31

theorem bucketOf_of_keySize_lt (hk : table.keySize < 2 ^ 31) (key : Bytes) :
    ∃ b, table.bucketOf key = some b := by
  have hint := int32_eq_self hk
  apply Option.isSome_iff_exists.mp
  rw [bucketOf, Option.isSome_map, isSome_murmurhash3_32]
  omega

theorem bucketOf_of_le_keySize (hk : 2 ^ 31 ≤ table.keySize) (hk' : table.keySize + 4 ≤ 2 ^ 32)
    (key : Bytes) : table.bucketOf key = none := by
  have hint : int32 table.keySize ≤ -4 := by
    unfold int32
    rw [Nat.mod_eq_of_lt (by omega), if_neg (by omega)]
    omega
  apply Option.not_isSome_iff_eq_none.mp
  rw [bucketOf, Option.isSome_map, isSome_murmurhash3_32]
  omega

namespace Represents

theorem exists_bucketOf (h : table.Represents keySize chain m) (key : Bytes) :
    ∃ b, table.bucketOf key = some b :=
  bucketOf_of_keySize_lt (h.keySize_eq ▸ h.keySize_lt) key

theorem lookup (h : table.Represents keySize chain m) (hk : key.length = table.keySize)
    (hb : table.bucketOf key = some b) :
    (table.lookup b key = .absent ∧ m.find key = none ∧ ∀ i ∈ chain b, table.keyAt i ≠ key) ∨
      ∃ l₁ i l₂, chain b = l₁ ++ i :: l₂ ∧ table.keyAt i = key ∧
        table.lookup b key = .found (l₁.getLastD kvInvalidIdx) i ∧
        m.find key = some (table.valueAt i) := by
  have hb' := h.inv.geometry.bucketOf_lt hb
  rcases h.inv.lookup hk hb' with ⟨hw, hall⟩ | ⟨l₁, i, l₂, hc, hi, hw⟩
  · refine Or.inl ⟨hw, ?_, hall⟩
    refine Option.eq_none_iff_forall_ne_some.mpr fun val hval => ?_
    obtain ⟨b', hb'', j, hj, hkey, -⟩ := (h.find_iff key val).mp hval
    obtain rfl : b' = b := Option.some.inj ((h.inv.home b' hb'' j hj).symm.trans (hkey ▸ hb))
    exact hall j hj hkey
  · exact Or.inr ⟨l₁, i, l₂, hc, hi, hw,
      (h.find_iff key _).mpr ⟨b, hb', i, by simp [hc], hi, rfl⟩⟩

theorem full_iff (h : table.Represents keySize chain m) : m.Full ↔ table.freeTop < 0 := by
  have := h.card_eq
  have := h.inv.top_ge
  unfold BoundedMap.Full
  omega

theorem length_valueAt (h : table.Represents keySize chain m) {i : ℕ} (hb : b < table.bucketCount)
    (hi : i ∈ chain b) : (table.valueAt i).length = (table.getEntry i).valLen := by
  have := h.inv.data_length i (h.inv.used_lt b hb i hi)
  have := h.inv.valLen_le b hb i hi
  simp only [valueAt, List.length_take, List.length_drop]
  omega

theorem setReaders (h : table.Represents keySize chain m) (b n : ℕ) :
    (table.setReaders b n).Represents keySize chain m where
  inv := h.inv.setReaders b n
  find_iff := h.find_iff
  card_eq := h.card_eq
  keySize_eq := h.keySize_eq
  keySize_lt := h.keySize_lt

/-- The simulation of one call. -/
theorem step_put (h : table.Represents keySize chain m) (hk : key.length = table.keySize)
    (hr : table.Ready (.put key val)) :
    ∃ table' chain', table.kvStep (.put key val) =
        some ((mapStep table.maxValSize m (.put key val)).1, table') ∧
      table'.Represents keySize chain' (mapStep table.maxValSize m (.put key val)).2 := by
  by_cases hlen : table.maxValSize < val.length
  · exact ⟨table, chain, by simp [kvStep, nosKvPut, mapStep, hlen],
      by simpa [mapStep, hlen] using h⟩
  obtain ⟨b, hb⟩ := h.exists_bucketOf key
  have hb' := h.inv.geometry.bucketOf_lt hb
  have hreaders : (table.buckets b).readers = 0 := hr (Nat.le_of_not_lt hlen) b hb
  rcases h.lookup hk hb with ⟨hw, hfind, habsent⟩ | ⟨l₁, i, l₂, hc, hi, hw, hfind⟩
  · by_cases hfull : m.Full
    · have hfree := h.full_iff.mp hfull
      refine ⟨table, chain, ?_, ?_⟩
      · simp [kvStep, nosKvPut, mapStep, hlen, hb, hreaders, hw, hfind, hfull, hfree]
      · simpa [mapStep, hlen, hfind, hfull] using h
    · have hfree := mt h.full_iff.mpr hfull
      refine ⟨table.insertNew b key (some val) val.length, table.chainInsert chain b, ?_, ?_⟩
      · simp [kvStep, nosKvPut, mapStep, hlen, hb, hreaders, hw, hfind, hfull, hfree]
      · have hset : (mapStep table.maxValSize m (.put key val)).2 =
            m.set key val (Or.inr hfull) := by
          simp [mapStep, hlen, hfind, hfull]
        rw [hset]
        refine ⟨h.inv.insertNew hfree hb hk (Nat.le_of_not_lt hlen) habsent, fun k v => ?_, ?_,
          h.keySize_eq, h.keySize_lt⟩
        · rw [h.inv.stores_insertNew hfree hb hk rfl habsent, ← h.find_iff]
          by_cases hkk : k = key
          · simp [BoundedMap.set, hkk, eq_comm]
          · simp [BoundedMap.set, hkk]
        · have := h.card_eq
          rw [m.card_set_of_absent val hfind hfull]
          show ((m.live.card + 1 : ℕ) : ℤ) + (table.freeTop - 1 + 1) = capacity
          omega
  · have hlive : (m.find key).isSome := by simp [hfind]
    have himem : i ∈ chain b := by simp [hc]
    refine ⟨table.overwrite i (some val) val.length, chain, ?_, ?_⟩
    · simp [kvStep, nosKvPut, mapStep, hlen, hb, hreaders, hw, hfind]
    · have hset : (mapStep table.maxValSize m (.put key val)).2 = m.set key val (Or.inl hlive) := by
        simp [mapStep, hlen, hfind]
      rw [hset]
      refine ⟨h.inv.overwrite hb' himem (Nat.le_of_not_lt hlen), fun k v => ?_, ?_,
        h.keySize_eq, h.keySize_lt⟩
      · rw [h.inv.stores_overwrite hb' himem rfl hi, ← h.find_iff]
        by_cases hkk : k = key
        · simp [BoundedMap.set, hkk, eq_comm]
        · simp [BoundedMap.set, hkk]
      · rw [m.card_set_of_live val hlive]
        exact h.card_eq

theorem step_get (h : table.Represents keySize chain m) (hk : key.length = table.keySize) :
    ∃ table' chain', table.kvStep (.get key room) =
        some ((mapStep table.maxValSize m (.get key room)).1, table') ∧
      table'.Represents keySize chain' (mapStep table.maxValSize m (.get key room)).2 := by
  obtain ⟨b, hb⟩ := h.exists_bucketOf key
  have hb' := h.inv.geometry.bucketOf_lt hb
  rcases h.lookup hk hb with ⟨hw, hfind, -⟩ | ⟨l₁, i, l₂, hc, hi, hw, hfind⟩
  · refine ⟨table, chain, by simp [kvStep, nosKvGet, mapStep, hb, hw, hfind], ?_⟩
    simpa [mapStep, hfind] using h
  · have hlen := h.length_valueAt (i := i) hb' (by simp [hc])
    have hcopy : (if room < (table.getEntry i).valLen then room else (table.getEntry i).valLen) =
        min room (table.getEntry i).valLen := by
      split <;> omega
    have hread : ((table.getEntry i).data.drop table.keySize).take
        (min room (table.getEntry i).valLen) =
          (table.valueAt i).take (min room (table.getEntry i).valLen) := by
      rw [valueAt, List.take_take, Nat.min_eq_left (Nat.min_le_right ..)]
    refine ⟨table, chain, ?_, by simpa [mapStep, hfind] using h⟩
    simp [kvStep, nosKvGet, mapStep, hb, hw, hfind, hlen, hcopy, hread]

theorem step_getPtr (h : table.Represents keySize chain m) (hk : key.length = table.keySize) :
    ∃ table' chain', table.kvStep (.getPtr key) =
        some ((mapStep table.maxValSize m (.getPtr key)).1, table') ∧
      table'.Represents keySize chain' (mapStep table.maxValSize m (.getPtr key)).2 := by
  obtain ⟨b, hb⟩ := h.exists_bucketOf key
  have hb' := h.inv.geometry.bucketOf_lt hb
  rcases h.lookup hk hb with ⟨hw, hfind, -⟩ | ⟨l₁, i, l₂, hc, hi, hw, hfind⟩
  · refine ⟨table, chain, by simp [kvStep, nosKvGetPtr, mapStep, hb, hw, hfind], ?_⟩
    simpa [mapStep, hfind] using h
  · have hlen := h.length_valueAt (i := i) hb' (by simp [hc])
    refine ⟨table.setReaders b ((table.buckets b).readers + 1), chain, ?_, ?_⟩
    · simp [kvStep, nosKvGetPtr, mapStep, hb, hw, hfind, hlen]
      rfl
    · simpa [mapStep, hfind] using h.setReaders b _

theorem step_releasePtr (h : table.Represents keySize chain m) (hr : table.Ready (.releasePtr b)) :
    ∃ table' chain', table.kvStep (.releasePtr b) =
        some ((mapStep table.maxValSize m (.releasePtr b)).1, table') ∧
      table'.Represents keySize chain' (mapStep table.maxValSize m (.releasePtr b)).2 := by
  refine ⟨table.setReaders b ((table.buckets b).readers - 1), chain, ?_, h.setReaders b _⟩
  rw [kvStep, nosKvReleasePtr, if_neg hr]
  rfl

theorem step_del (h : table.Represents keySize chain m) (hk : key.length = table.keySize)
    (hr : table.Ready (.del key)) :
    ∃ table' chain', table.kvStep (.del key) =
        some ((mapStep table.maxValSize m (.del key)).1, table') ∧
      table'.Represents keySize chain' (mapStep table.maxValSize m (.del key)).2 := by
  obtain ⟨b, hb⟩ := h.exists_bucketOf key
  have hb' := h.inv.geometry.bucketOf_lt hb
  have hreaders : (table.buckets b).readers = 0 := hr b hb
  rcases h.lookup hk hb with ⟨hw, hfind, -⟩ | ⟨l₁, i, l₂, hc, hi, hw, hfind⟩
  · refine ⟨table, chain, by simp [kvStep, nosKvDel, mapStep, hb, hreaders, hw, hfind], ?_⟩
    simpa [mapStep, hfind] using h
  · refine ⟨table.delete b (l₁.getLastD kvInvalidIdx) i, chainDelete chain b l₁ l₂, ?_, ?_⟩
    · simp [kvStep, nosKvDel, mapStep, hb, hreaders, hw, hfind]
    · have herase : (mapStep table.maxValSize m (.del key)).2 = m.erase key := by
        simp [mapStep, hfind]
      rw [herase]
      refine ⟨h.inv.delete hb' hc, fun k v => ?_, ?_, by simpa using h.keySize_eq,
        h.keySize_lt⟩
      · rw [h.inv.stores_delete hb' hc hi, ← h.find_iff]
        by_cases hkk : k = key
        · simp [BoundedMap.erase, hkk]
        · simp [BoundedMap.erase, hkk]
      · have := h.card_eq
        have := m.card_erase_of_live (k := key) (by simp [hfind])
        rw [freeTop_delete]
        omega

theorem step (h : table.Represents keySize chain m) {call : KvCall}
    (hk : call.KeySized keySize) (hr : table.Ready call) :
    ∃ table' chain', table.kvStep call = some ((mapStep table.maxValSize m call).1, table') ∧
      table'.Represents keySize chain' (mapStep table.maxValSize m call).2 := by
  rw [← h.keySize_eq] at hk
  cases call with
  | put key val => exact h.step_put hk hr
  | get key room => exact h.step_get hk
  | getPtr key => exact h.step_getPtr hk
  | releasePtr handle => exact h.step_releasePtr hr
  | del key => exact h.step_del hk hr

theorem agrees (h : table.Represents keySize chain m) {calls : List KvCall}
    (hk : ∀ call ∈ calls, call.KeySized keySize) : table.Agrees m calls := by
  induction calls generalizing table chain m with
  | nil => trivial
  | cons call calls ih =>
    intro hr
    obtain ⟨table', chain', hstep, h'⟩ := h.step (hk call List.mem_cons_self) hr
    exact ⟨table', hstep, ih h' fun c hc => hk c (List.mem_cons_of_mem _ hc)⟩

end Represents

theorem le_of_sizeBuckets {rounds bucketCount n : ℕ}
    (h : sizeBuckets capacity rounds n = some bucketCount) : capacity ≤ bucketCount := by
  induction rounds generalizing n with
  | zero => simp [sizeBuckets] at h
  | succ rounds ih =>
    rw [sizeBuckets] at h
    split at h
    · exact ih h
    · obtain rfl := Option.some.inj h
      omega

/-- A new table has empty chains, and all its records are on the free stack. -/
theorem inv_newTable_of_recordsFit {name : Bytes} {maxValSize : ℕ} (hc : 0 < capacity)
    (hfit : RecordsFit keySize maxValSize capacity)
    (h : newTable name keySize maxValSize capacity = some table) :
    table.Inv fun _ => [] := by
  obtain ⟨bucketCount, hbuckets, rfl⟩ := Option.map_eq_some_iff.mp h
  obtain ⟨hsize, hlast⟩ := hfit
  have hentry : u32 (sizeofNosKvEntry + keySize + maxValSize) =
      sizeofNosKvEntry + keySize + maxValSize := Nat.mod_eq_of_lt hsize
  refine
    { geometry := ⟨hentry, by simpa only [hentry] using hlast,
        hc.trans_le (le_of_sizeBuckets hbuckets)⟩
      isChain := fun _ _ => rfl
      used_lt := by simp
      home := by simp
      key_unique := by simp
      top_ge := ?_
      free_lt := ?_
      free_inj := fun _ _ _ _ h => h
      free_unused := by simp
      cover := ?_
      data_length := ?_
      valLen_le := by simp }
  · show -1 ≤ (capacity : ℤ) - 1
    omega
  · intro k hk
    have : (k : ℤ) ≤ (capacity : ℤ) - 1 := hk
    show k < capacity
    omega
  · intro i hi
    have : i < capacity := hi
    refine Or.inr ⟨i, ?_, rfl⟩
    show (i : ℤ) ≤ (capacity : ℤ) - 1
    omega
  · intro i _
    show (List.replicate _ (0 : UInt8)).length = keySize + maxValSize
    rw [List.length_replicate, hentry]
    omega

theorem inv_newTable {name : Bytes} {maxValSize : ℕ} (hc : 0 < capacity)
    (hfit : capacity * (sizeofNosKvEntry + keySize + maxValSize) < 2 ^ 32)
    (h : newTable name keySize maxValSize capacity = some table) :
    table.Inv fun _ => [] :=
  inv_newTable_of_recordsFit hc (.of_pool hc hfit) h

theorem represents_newTable {name : Bytes} {maxValSize : ℕ} (hc : 0 < capacity)
    (hfit : capacity * (sizeofNosKvEntry + keySize + maxValSize) < 2 ^ 32)
    (hk : keySize < 2 ^ 31) (h : newTable name keySize maxValSize capacity = some table) :
    table.Represents keySize (fun _ => [])
      (BoundedMap.empty : BoundedMap Bytes Bytes table.capacity) := by
  have hinv := inv_newTable hc hfit h
  obtain ⟨bucketCount, -, rfl⟩ := Option.map_eq_some_iff.mp h
  exact
    { inv := hinv
      find_iff := fun key val => by simp [BoundedMap.empty, Stores]
      card_eq := by simp [BoundedMap.empty]
      keySize_eq := rfl
      keySize_lt := hk }

theorem newTable_of_create {tables : List NosKvTable} {name : Bytes} {maxValSize : ℕ}
    {memory : Bool}
    (h : nosKvTableCreate tables name keySize maxValSize capacity memory =
      some (tables ++ [table], some tables.length)) :
    0 < capacity ∧ newTable name keySize maxValSize capacity = some table := by
  unfold nosKvTableCreate at h
  split at h
  · simp at h
  rename_i hsizes
  refine ⟨by omega, ?_⟩
  split at h
  · simp at h
  · split at h
    · simp at h
    · obtain ⟨made, hmade, he⟩ := Option.map_eq_some_iff.mp h
      simp only [Prod.mk.injEq, List.append_cancel_left_eq, List.cons.injEq, and_true] at he
      rw [hmade, he]

/-- Past the range of `int`, the first lookup already leaves the key. -/
theorem not_refinesMap_of_le_keySize (hk : 2 ^ 31 ≤ table.keySize)
    (hk' : table.keySize + 4 ≤ 2 ^ 32) : ¬ table.RefinesMap := by
  intro h
  have hcall := h [.get (List.replicate table.keySize 0) 0] (by simp [KvCall.KeySized])
  obtain ⟨table', hstep, -⟩ := hcall trivial
  simp [kvStep, nosKvGet, bucketOf_of_le_keySize hk hk'] at hstep

/-- A new table whose pool spans less than `2 ^ 32` bytes behaves as a bounded map exactly if the
length of its keys fits the `int` that the hash takes. -/
theorem refinesMap_iff_keySize_lt {tables : List NosKvTable} {name : Bytes}
    {maxValSize : ℕ} {memory : Bool}
    (h : nosKvTableCreate tables name keySize maxValSize capacity memory =
      some (tables ++ [table], some tables.length))
    (hfit : capacity * (sizeofNosKvEntry + keySize + maxValSize) < 2 ^ 32) :
    table.RefinesMap ↔ keySize < 2 ^ 31 := by
  obtain ⟨hc, hnew⟩ := newTable_of_create h
  have hsize : table.keySize = keySize := by
    obtain ⟨bucketCount, -, rfl⟩ := Option.map_eq_some_iff.mp hnew
    rfl
  constructor
  · intro href
    by_contra hk
    have := Nat.le_mul_of_pos_left (sizeofNosKvEntry + keySize + maxValSize) hc
    have : sizeofNosKvEntry = 16 := rfl
    exact not_refinesMap_of_le_keySize (by omega) (by omega) href
  · intro hk calls hkeys
    exact (represents_newTable hc hfit hk hnew).agrees fun call hcall => hsize ▸ hkeys call hcall

/-- A table for two entries with keys of four bytes. -/
theorem refinesMap_small_table : ∃ table,
    nosKvTableCreate [] [107, 118] 4 8 2 true = some ([] ++ [table], some 0) ∧
      2 * (sizeofNosKvEntry + 4 + 8) < 2 ^ 32 ∧ table.RefinesMap := by
  have hcreate : nosKvTableCreate [] [107, 118] 4 8 2 true =
      some ([] ++ [(newTable [107, 118] 4 8 2).get rfl], some ([] : List NosKvTable).length) := rfl
  have hfit : 2 * (sizeofNosKvEntry + 4 + 8) < 2 ^ 32 := by decide
  exact ⟨_, hcreate, hfit, (refinesMap_iff_keySize_lt hcreate hfit).mpr (by decide)⟩

/-- One record with a key of `2 ^ 31` bytes. -/
theorem not_refinesMap_huge_key : ∃ table,
    nosKvTableCreate [] [107, 118] (2 ^ 31) 0 1 true = some ([table], some 0) ∧
      1 * (sizeofNosKvEntry + 2 ^ 31 + 0) < 2 ^ 32 ∧ ¬ table.RefinesMap :=
  ⟨(newTable [107, 118] (2 ^ 31) 0 1).get rfl, rfl, by decide,
    not_refinesMap_of_le_keySize (le_refl (2 ^ 31)) (by decide : 2 ^ 31 + 4 ≤ 2 ^ 32)⟩

end NosKvTable

end GeminiNOS

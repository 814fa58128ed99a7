import GeminiNOS.Foundations.BoundedMap
import GeminiNOS.Foundations.Linearizable
import GeminiNOS.Kv.OtherBuckets
import GeminiNOS.Kv.BucketLocks

/-! # The map that a table shows

A key is bound to its value and its subscribers. What each operation does to such a
map in one step is the specification of a table that many threads use; what the
writes do to the records of a table is stated on the map that the records show.
-/

namespace GeminiNOS

open Foundations IndexChain

/-- What a live key is bound to. -/
structure KvItem where
  value : Bytes
  subList : List NosKvSub

/-- The bytes behind a put: as many as it asks for, and beginning with what it copies. -/
def Wrote (val : Option Bytes) (valLen : ℕ) (value : Bytes) : Prop :=
  value.length = valLen ∧ ∀ bytes ∈ val, bytes.take valLen <+: value

/-- Puts and deletes take records from the free stack, or give them back. -/
def KvLockCall.moves : KvLockCall → Bool
  | put _ _ _ | del _ => true
  | _ => false

section Map

variable {P : Type*} [Fintype P] [DecidableEq P] {capacity : ℕ}

/-- How many other threads are in a put or a delete. -/
def movers (calls : P → Option KvLockCall) (p : P) : ℕ :=
  (Finset.univ.filter fun q => q ≠ p ∧ (calls q).any KvLockCall.moves).card

/-- What an operation may do to the map in one step. The records of a put or a delete that is on
its way can be missing to another put. -/
inductive KvApply (maxValSize : ℕ) (calls : P → Option KvLockCall) (p : P)
    (m : BoundedMap Bytes KvItem capacity) :
    KvLockCall → KvOutcome → BoundedMap Bytes KvItem capacity → Prop
  | reject {call : KvLockCall} (hc : call.checked maxValSize = none)
      (hcall : ∀ handle, call ≠ .releasePtr handle) :
      KvApply maxValSize calls p m call ⟨.err, none⟩ m
  | release (handle : Option ℕ) : KvApply maxValSize calls p m (.releasePtr handle) ⟨.ok, none⟩ m
  | absent {call : KvLockCall} {key : Bytes} (hc : call.checked maxValSize = some key)
      (hm : m.find key = none) (hcall : ∀ key val valLen, call ≠ .put key val valLen) :
      KvApply maxValSize calls p m call ⟨.err, none⟩ m
  | busy {key : Bytes} {val : Option Bytes} {valLen : ℕ} (hl : valLen ≤ maxValSize)
      (hm : m.find key = none) (hbusy : capacity ≤ m.live.card + movers calls p) :
      KvApply maxValSize calls p m (.put (some key) val valLen) ⟨.errBusy, none⟩ m
  | insert {key value : Bytes} {val : Option Bytes} {valLen : ℕ} (hl : valLen ≤ maxValSize)
      (hm : m.find key = none) (hfull : ¬ m.Full) (hv : Wrote val valLen value) :
      KvApply maxValSize calls p m (.put (some key) val valLen) ⟨.ok, none⟩
        (m.set key ⟨value, []⟩ (.inr hfull))
  | overwrite {key value : Bytes} {val : Option Bytes} {valLen : ℕ} {item : KvItem}
      (hl : valLen ≤ maxValSize) (hm : m.find key = some item) (hv : Wrote val valLen value) :
      KvApply maxValSize calls p m (.put (some key) val valLen) ⟨.ok, none⟩
        (m.set key ⟨value, item.subList⟩ (.inl (Option.isSome_of_eq_some hm)))
  | read {key : Bytes} {room : ℕ} {item : KvItem} (hm : m.find key = some item) :
      KvApply maxValSize calls p m (.get (some key) true (some room))
        ⟨.ok, some (item.value.take room, item.value.length)⟩ m
  | readPtr {key : Bytes} {addr : ℕ} {item : KvItem} (hm : m.find key = some item) :
      KvApply maxValSize calls p m (.getPtr (some key) true true true addr)
        ⟨.ok, some (item.value, item.value.length)⟩ m
  | subscribed {key : Bytes} {sub : NosKvSub} {item : KvItem} (hsub : sub.notify ≠ 0)
      (hm : m.find key = some item) (hmem : sub ∈ item.subList) :
      KvApply maxValSize calls p m (.subscribe (some key) sub) ⟨.ok, none⟩ m
  | subscribe {key : Bytes} {sub : NosKvSub} {item : KvItem} (hsub : sub.notify ≠ 0)
      (hm : m.find key = some item) (hmem : sub ∉ item.subList) :
      KvApply maxValSize calls p m (.subscribe (some key) sub) ⟨.ok, none⟩
        (m.set key ⟨item.value, sub :: item.subList⟩ (.inl (Option.isSome_of_eq_some hm)))
  | unsubscribe {key : Bytes} {sub : NosKvSub} {item : KvItem} (hsub : sub.notify ≠ 0)
      (hm : m.find key = some item) (hmem : sub ∈ item.subList) :
      KvApply maxValSize calls p m (.unsubscribe (some key) sub) ⟨.ok, none⟩
        (m.set key ⟨item.value, item.subList.erase sub⟩ (.inl (Option.isSome_of_eq_some hm)))
  | unknown {key : Bytes} {sub : NosKvSub} {item : KvItem} (hsub : sub.notify ≠ 0)
      (hm : m.find key = some item) (hmem : sub ∉ item.subList) :
      KvApply maxValSize calls p m (.unsubscribe (some key) sub) ⟨.err, none⟩ m
  | delete {key : Bytes} (hm : (m.find key).isSome) :
      KvApply maxValSize calls p m (.del (some key)) ⟨.ok, none⟩ (m.erase key)

end Map

namespace NosKvTable

variable {table table' : NosKvTable} {chain chain' : ℕ → List ℕ} {key data value : Bytes}
  {val : Option Bytes} {valLen b b' i j capacity : ℕ} {l₁ l₂ : List ℕ} {args : KvInsert}
  {item : KvItem} {m : BoundedMap Bytes KvItem capacity}

def itemAt (table : NosKvTable) (i : ℕ) : KvItem := ⟨table.valueAt i, (table.getEntry i).subList⟩

/-- The map binds what the chains of the table hold. -/
structure Shows (table : NosKvTable) (chain : ℕ → List ℕ) (m : BoundedMap Bytes KvItem capacity) :
    Prop where
  find_iff : ∀ key item, m.find key = some item ↔
    ∃ b < table.bucketCount, ∃ i ∈ chain b, table.keyAt i = key ∧ table.itemAt i = item
  card_eq : m.live.card = table.liveKeys chain
  capacity_eq : table.capacity = capacity

theorem itemAt_congr (hs : table'.keySize = table.keySize)
    (he : table'.getEntry j = table.getEntry j) : table'.itemAt j = table.itemAt j := by
  rw [itemAt, itemAt, valueAt, valueAt, he, hs]

theorem wrote_storeVal (hd : data.length = table.keySize + table.maxValSize)
    (hv : valLen ≤ table.maxValSize) :
    Wrote val valLen (((table.storeVal data val valLen).drop table.keySize).take valLen) := by
  constructor
  · rw [List.length_take, List.length_drop, length_storeVal hd hv]
    omega
  · rintro bytes ⟨⟩
    have hl : (data.take table.keySize).length = table.keySize := by simp [hd]
    have hdrop : (table.storeVal data (some bytes) valLen).drop table.keySize =
        bytes.take valLen ++ data.drop (table.keySize + (bytes.take valLen).length) := by
      rw [storeVal, memcpyAt, List.append_assoc, List.drop_left' hl]
    rw [hdrop, List.take_append, List.take_take, Nat.min_self]
    exact List.prefix_append _ _

namespace Chains

theorem unique (h : table.Chains chain) (h' : table.Chains chain') (hb : b < table.bucketCount) :
    chain b = chain' b :=
  (h.isChain hb).unique (h'.isChain hb)

theorem home (h : table.Chains chain) (hb : b < table.bucketCount) (hi : i ∈ chain b) :
    table.bucketOf (table.keyAt i) = some b := by
  obtain ⟨_, _, _, h⟩ := h
  exact h.home b hb i hi

theorem record_eq (h : table.Chains chain) (hb : b < table.bucketCount)
    (hb' : b' < table.bucketCount) (hi : i ∈ chain b) (hj : j ∈ chain b')
    (he : table.keyAt i = table.keyAt j) : i = j := by
  obtain ⟨_, _, _, h⟩ := h
  exact (h.record_eq hb hb' hi hj he).2

theorem data_length (h : table.Chains chain) (hi : i < table.capacity) :
    (table.getEntry i).data.length = table.keySize + table.maxValSize := by
  obtain ⟨_, _, _, h⟩ := h
  exact h.data_length i hi

theorem length_valueAt (h : table.Chains chain) (hb : b < table.bucketCount) (hi : i ∈ chain b) :
    (table.valueAt i).length = (table.getEntry i).valLen := by
  have hd := h.data_length (h.used_lt hb hi)
  obtain ⟨_, _, _, h⟩ := h
  have hv : (table.getEntry i).valLen ≤ table.maxValSize := h.valLen_le b hb i hi
  rw [valueAt, List.length_take, List.length_drop, hd]
  omega

theorem keyAt_linkNew_self (h : table.Chains chain) (hi : table.Unchained chain i)
    (hk : args.key.length = table.keySize) : (table.linkNew args i).keyAt i = args.key := by
  obtain ⟨freeStack, freeTop, usedCount, h⟩ := h
  obtain ⟨ht, freeStack', rfl, h'⟩ := h.retop hi
  exact h'.keyAt_insertNew_self ht hk

theorem itemAt_linkNew_self (h : table.Chains chain) (hi : table.Unchained chain i)
    (hk : args.key.length = table.keySize) (hv : args.valLen ≤ table.maxValSize) :
    ∃ value, Wrote args.val args.valLen value ∧ (table.linkNew args i).itemAt i = ⟨value, []⟩ := by
  have hd : (memcpyAt (table.getEntry i).data 0 (args.key.take table.keySize)).length =
      table.keySize + table.maxValSize := by
    have hlen := h.data_length hi.1
    rw [← hk, List.take_length] at *
    rw [length_memcpyAt (by omega), hlen]
  refine ⟨_, wrote_storeVal hd hv, ?_⟩
  have hentry : (table.linkNew args i).getEntry i =
      { nextIdx := (table.buckets args.bucket).firstIdx
        valLen := args.valLen
        subList := []
        data := table.storeVal (memcpyAt (table.getEntry i).data 0 (args.key.take table.keySize))
          args.val args.valLen } := by
    simp [NosKvTable.linkNew, getEntry, setEntry, entryOffset]
  rw [itemAt, valueAt, hentry]
  rfl

theorem itemAt_linkNew (h : table.Chains chain) (hi : table.Unchained chain i)
    (hb : b < table.bucketCount) (hj : j ∈ chain b) :
    (table.linkNew args i).itemAt j = table.itemAt j := by
  have hne : j ≠ i := ne_of_mem_of_not_mem hj (hi.2 b hb)
  exact itemAt_congr rfl (h.geometry.getEntry_setEntry_of_ne hi.1 (h.used_lt hb hj) hne)

theorem itemAt_overwrite_self (h : table.Chains chain) (hb : b < table.bucketCount)
    (hi : i ∈ chain b) (hv : valLen ≤ table.maxValSize) : ∃ value, Wrote val valLen value ∧
      (table.overwrite i val valLen).itemAt i = ⟨value, (table.itemAt i).subList⟩ := by
  refine ⟨_, wrote_storeVal (h.data_length (h.used_lt hb hi)) hv, ?_⟩
  rw [itemAt, valueAt, NosKvTable.overwrite, getEntry_setEntry_self]
  rfl

theorem itemAt_setEntry (h : table.Chains chain) (hi : i < table.capacity)
    (hj : j < table.capacity) (hne : j ≠ i) (entry : NosKvEntry) :
    (table.setEntry i entry).itemAt j = table.itemAt j :=
  itemAt_congr rfl (h.geometry.getEntry_setEntry_of_ne hi hj hne)

theorem itemAt_detach (h : table.Chains chain) (hb : b < table.bucketCount)
    (hc : chain b = l₁ ++ i :: l₂) (hj : j < table.capacity) (hij : j ≠ i) :
    (table.detach b (l₁.getLastD kvInvalidIdx) i).itemAt j = table.itemAt j := by
  have hi : i < table.capacity := h.used_lt hb (by simp [hc])
  have hkept : (table.detach b (l₁.getLastD kvInvalidIdx) i).getEntry j =
      (table.unlink b (l₁.getLastD kvInvalidIdx) i).getEntry j :=
    h.geometry.unlink.getEntry_setEntry_of_ne (by simpa using hi) (by simpa using hj) hij
  have hentry : ∃ nextIdx, (table.unlink b (l₁.getLastD kvInvalidIdx) i).getEntry j =
      { table.getEntry j with nextIdx := nextIdx } := by
    rcases List.eq_nil_or_concat l₁ with rfl | ⟨l, k, rfl⟩
    · exact ⟨_, getEntry_unlink_head⟩
    · have hk : k < table.capacity := h.used_lt hb (by simp [hc])
      have hlast : (l.concat k).getLastD kvInvalidIdx = k := by simp
      exact ⟨_, by rw [hlast, h.geometry.getEntry_unlink hk hj]⟩
  obtain ⟨nextIdx, hentry⟩ := hentry
  rw [itemAt, itemAt, valueAt, valueAt, hkept, hentry, keySize_detach]

end Chains

namespace Shows

theorem find_some (h : table.Shows chain m) (hb : b < table.bucketCount) (hi : i ∈ chain b) :
    m.find (table.keyAt i) = some (table.itemAt i) :=
  (h.find_iff _ _).mpr ⟨b, hb, i, hi, rfl, rfl⟩

theorem find_none (h : table.Shows chain m) (hc : table.Chains chain)
    (hof : table.bucketOf key = some b) (habsent : ∀ i ∈ chain b, table.keyAt i ≠ key) :
    m.find key = none := by
  by_contra hne
  obtain ⟨item, hitem⟩ := Option.ne_none_iff_exists'.mp hne
  obtain ⟨b', hb', i, hi, rfl, -⟩ := (h.find_iff key item).mp hitem
  obtain rfl := Option.some.inj ((hc.home hb' hi).symm.trans hof)
  exact habsent i hi rfl

theorem congr (h : table.Shows chain m) (hcount : table'.bucketCount = table.bucketCount)
    (hcap : table'.capacity = table.capacity)
    (hchain : ∀ b < table.bucketCount, chain' b = chain b)
    (hsame : ∀ b < table.bucketCount, ∀ i ∈ chain b,
      table'.keyAt i = table.keyAt i ∧ table'.itemAt i = table.itemAt i) :
    table'.Shows chain' m := by
  constructor
  · intro key item
    rw [h.find_iff, hcount]
    refine exists_congr fun b => and_congr_right fun hb => ?_
    rw [hchain b hb]
    refine exists_congr fun i => and_congr_right fun hi => ?_
    rw [(hsame b hb i hi).1, (hsame b hb i hi).2]
  · rw [h.card_eq, liveKeys, liveKeys, hcount]
    refine Finset.sum_congr rfl fun b hb => ?_
    rw [hchain b (Finset.mem_range.mp hb)]
  · exact hcap.trans h.capacity_eq

theorem rechain (h : table.Shows chain m) (hc : table.Chains chain) (hc' : table.Chains chain') :
    table.Shows chain' m :=
  h.congr rfl rfl (fun _ hb => hc'.unique hc hb) fun _ _ _ _ => ⟨rfl, rfl⟩

theorem set_live (h : table.Shows chain m) (hc : table.Chains chain) (hb : b < table.bucketCount)
    (hi : i ∈ chain b) (hlive : (m.find (table.keyAt i)).isSome)
    (hcount : table'.bucketCount = table.bucketCount) (hcap : table'.capacity = table.capacity)
    (hkeys : ∀ j < table.capacity, table'.keyAt j = table.keyAt j)
    (hself : table'.itemAt i = item)
    (hothers : ∀ j < table.capacity, j ≠ i → table'.itemAt j = table.itemAt j) :
    table'.Shows chain (m.set (table.keyAt i) item (.inl hlive)) := by
  constructor
  · intro k x
    rw [hcount]
    constructor
    · intro hk
      by_cases he : k = table.keyAt i
      · subst he
        obtain rfl : item = x := by simpa [BoundedMap.set] using hk
        exact ⟨b, hb, i, hi, hkeys i (hc.used_lt hb hi), hself⟩
      · have hk' : m.find k = some x := by simpa [BoundedMap.set, he] using hk
        obtain ⟨b', hb', j, hj, rfl, rfl⟩ := (h.find_iff k x).mp hk'
        have hj' := hc.used_lt hb' hj
        exact ⟨b', hb', j, hj, hkeys j hj', hothers j hj' fun hij => he (congrArg _ hij)⟩
    · rintro ⟨b', hb', j, hj, rfl, rfl⟩
      have hj' := hc.used_lt hb' hj
      rw [hkeys j hj']
      by_cases he : table.keyAt j = table.keyAt i
      · obtain rfl := hc.record_eq hb' hb hj hi he
        simp [BoundedMap.set, hself]
      · have hij : j ≠ i := fun hij => he (congrArg _ hij)
        simp [BoundedMap.set, he, h.find_some hb' hj, hothers j hj' hij]
  · rw [BoundedMap.card_set_of_live m item hlive, h.card_eq, liveKeys, liveKeys, hcount]
  · exact hcap.trans h.capacity_eq

theorem set_new (h : table.Shows chain m) (hb : b < table.bucketCount)
    (hm : m.find key = none) (hfull : ¬ m.Full)
    (hcount : table'.bucketCount = table.bucketCount) (hcap : table'.capacity = table.capacity)
    (hkey : table'.keyAt i = key) (hself : table'.itemAt i = item)
    (hothers : ∀ b < table.bucketCount, ∀ j ∈ chain b,
      table'.keyAt j = table.keyAt j ∧ table'.itemAt j = table.itemAt j) :
    table'.Shows (Function.update chain b (i :: chain b)) (m.set key item (.inr hfull)) := by
  constructor
  · intro k x
    rw [hcount]
    constructor
    · intro hk
      by_cases he : k = key
      · subst he
        obtain rfl : item = x := by simpa [BoundedMap.set] using hk
        exact ⟨b, hb, i, by simp, hkey, hself⟩
      · have hk' : m.find k = some x := by simpa [BoundedMap.set, he] using hk
        obtain ⟨b', hb', j, hj, rfl, rfl⟩ := (h.find_iff k x).mp hk'
        refine ⟨b', hb', j, ?_, hothers b' hb' j hj⟩
        rw [Function.update_apply]
        split
        · rename_i hbb
          exact List.mem_cons_of_mem i (hbb ▸ hj)
        · exact hj
    · rintro ⟨b', hb', j, hj, rfl, rfl⟩
      have hcases : j = i ∨ j ∈ chain b' := by
        rw [Function.update_apply] at hj
        split at hj
        · rename_i hbb
          rw [hbb]
          exact List.mem_cons.mp hj
        · exact .inr hj
      rcases hcases with rfl | hj'
      · simp [BoundedMap.set, hkey, hself]
      · obtain ⟨hk, hx⟩ := hothers b' hb' j hj'
        have hfind := h.find_some hb' hj'
        have hne : table.keyAt j ≠ key := by
          intro he
          rw [he, hm] at hfind
          cases hfind
        simp [BoundedMap.set, hk, hx, hne, hfind]
  · have hupdate : table.liveKeys (Function.update chain b (i :: chain b)) + (chain b).length =
        table.liveKeys chain + (i :: chain b).length := liveKeys_update hb _
    rw [BoundedMap.card_set_of_absent m item hm hfull, h.card_eq]
    unfold liveKeys at hupdate ⊢
    rw [hcount]
    rw [List.length_cons] at hupdate
    omega
  · exact hcap.trans h.capacity_eq

theorem erase (h : table.Shows chain m) (hc : table.Chains chain) (hb : b < table.bucketCount)
    (hbc : chain b = l₁ ++ i :: l₂) (hcount : table'.bucketCount = table.bucketCount)
    (hcap : table'.capacity = table.capacity)
    (hothers : ∀ j < table.capacity, j ≠ i →
      table'.keyAt j = table.keyAt j ∧ table'.itemAt j = table.itemAt j) :
    table'.Shows (chainDelete chain b l₁ l₂) (m.erase (table.keyAt i)) := by
  have hi : i ∈ chain b := by simp [hbc]
  have hmem {b' j : ℕ} : j ∈ chainDelete chain b l₁ l₂ b' ↔ j ∈ chain b' ∧ ¬ (j = i ∧ b' = b) :=
    mem_chainDelete hbc (hc.isChain hb).nodup
  constructor
  · intro k x
    rw [hcount]
    constructor
    · intro hk
      have he : k ≠ table.keyAt i := by
        rintro rfl
        simp [BoundedMap.erase] at hk
      have hk' : m.find k = some x := by simpa [BoundedMap.erase, he] using hk
      obtain ⟨b', hb', j, hj, rfl, rfl⟩ := (h.find_iff k x).mp hk'
      have hij : j ≠ i := fun hij => he (congrArg _ hij)
      exact ⟨b', hb', j, hmem.mpr ⟨hj, fun hji => hij hji.1⟩, hothers j (hc.used_lt hb' hj) hij⟩
    · rintro ⟨b', hb', j, hj, rfl, rfl⟩
      obtain ⟨hj', hne⟩ := hmem.mp hj
      have hij : j ≠ i := by
        rintro rfl
        exact hne ⟨rfl, hc.chain_eq hb' hb hj' hi⟩
      obtain ⟨hk, hx⟩ := hothers j (hc.used_lt hb' hj') hij
      have hkeys : table.keyAt j ≠ table.keyAt i := fun he => hij (hc.record_eq hb' hb hj' hi he)
      simp [BoundedMap.erase, hk, hx, hkeys, h.find_some hb' hj']
  · have hlive : (m.find (table.keyAt i)).isSome := by simp [h.find_some hb hi]
    have hupdate : table.liveKeys (Function.update chain b (l₁ ++ l₂)) + (chain b).length =
        table.liveKeys chain + (l₁ ++ l₂).length := liveKeys_update hb _
    have herase := BoundedMap.card_erase_of_live m hlive
    rw [h.card_eq] at herase
    rw [hbc, List.length_append, List.length_append, List.length_cons] at hupdate
    unfold liveKeys chainDelete at *
    rw [hcount]
    omega
  · exact hcap.trans h.capacity_eq

end Shows

end NosKvTable

end GeminiNOS

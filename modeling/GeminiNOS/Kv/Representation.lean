import GeminiNOS.Foundations.Run
import GeminiNOS.Kv.Refinement

/-! # The records of a table

Whatever is put, deleted, subscribed and unsubscribed, the records of a table stay
divided between the bucket chains and the free stack, and the counter of used
records stays right.
-/

namespace GeminiNOS

open Foundations IndexChain

/-- A call that writes to a table. -/
inductive KvWrite where
  | put (key : Bytes) (val : Option Bytes) (valLen : ℕ)
  | del (key : Bytes)
  | subscribe (key : Bytes) (sub : NosKvSub)
  | unsubscribe (key : Bytes) (sub : NosKvSub)

def KvWrite.key : KvWrite → Bytes
  | put key _ _ | del key | subscribe key _ | unsubscribe key _ => key

namespace NosKvTable

def write (table : NosKvTable) : KvWrite → Option NosKvTable
  | .put key val valLen => (table.nosKvPut key val valLen).map fun r => r.2.1
  | .del key => (table.nosKvDel key).map Prod.snd
  | .subscribe key sub => (table.nosKvSubscribe key sub).map Prod.snd
  | .unsubscribe key sub => (table.nosKvUnsubscribe key sub).map Prod.snd

/-- Every record is in one chain, once, or on the free stack, once. Chained records sit in the
buckets of their keys, and no key occurs twice. -/
structure Divided (table : NosKvTable) (chain : ℕ → List ℕ) : Prop where
  isChain : ∀ b < table.bucketCount,
    IsChain table.next kvInvalidIdx (table.buckets b).firstIdx (chain b)
  nodup : ∀ b < table.bucketCount, (chain b).Nodup
  disjoint : ∀ b < table.bucketCount, ∀ b' < table.bucketCount, b ≠ b' →
    (chain b).Disjoint (chain b')
  home : ∀ b < table.bucketCount, ∀ i ∈ chain b, table.bucketOf (table.keyAt i) = some b
  key_unique : ∀ b < table.bucketCount, ∀ i ∈ chain b, ∀ b' < table.bucketCount, ∀ j ∈ chain b',
    table.keyAt i = table.keyAt j → i = j
  free_inj : ∀ k l, table.OnFreeStack k → table.OnFreeStack l →
    table.freeStack k = table.freeStack l → k = l
  exclusive : ∀ k, table.OnFreeStack k → ∀ b < table.bucketCount, table.freeStack k ∉ chain b
  cover : ∀ i, i < table.capacity ↔
    (∃ b < table.bucketCount, i ∈ chain b) ∨ ∃ k, table.OnFreeStack k ∧ table.freeStack k = i
  usedCount_eq : (table.usedCount : ℤ) = table.capacity - (table.freeTop + 1)

variable {table table' : NosKvTable} {chain : ℕ → List ℕ} {key : Bytes} {val : Option Bytes}
  {valLen keySize b i j : ℕ} {st : NosStatus} {notified : List KvNotification} {sub : NosKvSub}

theorem Inv.nosKvPut_cases (h : table.Inv chain) (hk : key.length = table.keySize)
    (hput : table.nosKvPut key val valLen = some (st, table', notified)) :
    (st ≠ .ok ∧ table' = table ∧ notified = []) ∨
      ∃ b, table.bucketOf key = some b ∧ valLen ≤ table.maxValSize ∧ st = .ok ∧
        ((∃ i ∈ chain b, table.keyAt i = key ∧ table' = table.overwrite i val valLen ∧
            notified = (table.getEntry i).subList.map
              fun sub => ⟨sub.notify, val, valLen, sub.arg⟩) ∨
          ((∀ i ∈ chain b, table.keyAt i ≠ key) ∧ ¬ table.freeTop < 0 ∧
            table' = table.insertNew b key val valLen ∧ notified = [])) := by
  unfold nosKvPut at hput
  split at hput
  · cases hput
    exact Or.inl ⟨by simp, rfl, rfl⟩
  · rename_i hlen
    obtain ⟨b, hb, hput⟩ := Option.bind_eq_some_iff.mp hput
    split at hput
    · cases hput
    · rcases h.lookup hk (h.geometry.bucketOf_lt hb) with ⟨hw, hall⟩ | ⟨l₁, i, l₂, hc, hi, hw⟩
      · rw [hw] at hput
        by_cases ht : table.freeTop < 0
        · rw [if_pos ht] at hput
          cases hput
          exact Or.inl ⟨by simp, rfl, rfl⟩
        · rw [if_neg ht] at hput
          cases hput
          exact Or.inr ⟨b, hb, by omega, rfl, Or.inr ⟨hall, ht, rfl, rfl⟩⟩
      · rw [hw] at hput
        cases hput
        exact Or.inr ⟨b, hb, by omega, rfl, Or.inl ⟨i, by simp [hc], hi, rfl, rfl⟩⟩

theorem Inv.nosKvDel_cases (h : table.Inv chain) (hk : key.length = table.keySize)
    (hdel : table.nosKvDel key = some (st, table')) :
    (st = .err ∧ table' = table) ∨
      ∃ b l₁ i l₂, table.bucketOf key = some b ∧ st = .ok ∧ chain b = l₁ ++ i :: l₂ ∧
        table.keyAt i = key ∧ table' = table.delete b (l₁.getLastD kvInvalidIdx) i := by
  obtain ⟨b, hb, hdel⟩ := Option.bind_eq_some_iff.mp hdel
  split at hdel
  · cases hdel
  · rcases h.lookup hk (h.geometry.bucketOf_lt hb) with ⟨hw, -⟩ | ⟨l₁, i, l₂, hc, hi, hw⟩
    · rw [hw] at hdel
      cases hdel
      exact Or.inl ⟨rfl, rfl⟩
    · rw [hw] at hdel
      cases hdel
      exact Or.inr ⟨b, l₁, i, l₂, hb, rfl, hc, hi, rfl⟩

/-- A call that looks its key up either finds no record and leaves the table, or does its work on
the record found. -/
theorem lookup_cases {f : ℕ → Option (NosStatus × NosKvTable)}
    (h : ((table.bucketOf key).bind fun b =>
      if 0 < (table.buckets b).readers then none
      else
        match table.lookup b key with
        | .endless => none
        | .absent => some (.err, table)
        | .found _ currIdx => f currIdx) = some (st, table')) :
    ∃ b, table.bucketOf key = some b ∧ ((table.lookup b key = .absent ∧ table' = table) ∨
      ∃ prev i, table.lookup b key = .found prev i ∧ f i = some (st, table')) := by
  obtain ⟨b, hb, h⟩ := Option.bind_eq_some_iff.mp h
  refine ⟨b, hb, ?_⟩
  split at h
  · cases h
  · split at h
    · cases h
    · cases h
      exact Or.inl ⟨‹_›, rfl⟩
    · exact Or.inr ⟨_, _, ‹_›, h⟩

theorem nosKvSubscribe_cases (hsub : table.nosKvSubscribe key sub = some (st, table')) :
    table' = table ∨ ∃ i, sub ∉ (table.getEntry i).subList ∧
      table' = table.setSubList i (sub :: (table.getEntry i).subList) := by
  unfold nosKvSubscribe at hsub
  split at hsub
  · cases hsub
    exact Or.inl rfl
  · obtain ⟨b, -, ⟨-, rfl⟩ | ⟨prev, i, -, hsub⟩⟩ := lookup_cases hsub
    · exact Or.inl rfl
    · dsimp only at hsub
      split at hsub <;> cases hsub
      · exact Or.inl rfl
      · exact Or.inr ⟨i, ‹_›, rfl⟩

theorem nosKvUnsubscribe_cases (hsub : table.nosKvUnsubscribe key sub = some (st, table')) :
    table' = table ∨ ∃ i, table' = table.setSubList i ((table.getEntry i).subList.erase sub) := by
  unfold nosKvUnsubscribe at hsub
  split at hsub
  · cases hsub
    exact Or.inl rfl
  · obtain ⟨b, -, ⟨-, rfl⟩ | ⟨prev, i, -, hsub⟩⟩ := lookup_cases hsub
    · exact Or.inl rfl
    · dsimp only at hsub
      split at hsub <;> cases hsub
      · exact Or.inr ⟨i, rfl⟩
      · exact Or.inl rfl

def UsedCounted (table : NosKvTable) : Prop :=
  (table.usedCount : ℤ) = table.capacity - (table.freeTop + 1)

theorem Inv.freeTop_lt (h : table.Inv chain) : table.freeTop < table.capacity := by
  by_contra hge
  have hon : ∀ k < table.capacity + 1, table.OnFreeStack k := fun k hk => by
    unfold OnFreeStack
    omega
  obtain ⟨k, hk, l, hl, hne, he⟩ := Finset.exists_ne_map_eq_of_card_lt_of_maps_to
    (s := Finset.range (table.capacity + 1)) (t := Finset.range table.capacity)
    (f := table.freeStack) (by simp)
    (fun k hk => Finset.mem_coe.mpr (Finset.mem_range.mpr
      (h.free_lt k (hon k (Finset.mem_range.mp hk)))))
  exact hne (h.free_inj k l (hon k (Finset.mem_range.mp hk)) (hon l (Finset.mem_range.mp hl)) he)

theorem Inv.capacity_lt (h : table.Inv chain) : table.capacity < 2 ^ 32 :=
  h.geometry.capacity_lt.trans (by decide)

theorem Inv.usedCounted_insertNew (h : table.Inv chain) (hused : table.UsedCounted)
    (ht : ¬ table.freeTop < 0) : (table.insertNew b key val valLen).UsedCounted := by
  have hcap := h.capacity_lt
  have hval : (table.insertNew b key val valLen).usedCount = table.usedCount + 1 :=
    Nat.mod_eq_of_lt (by unfold UsedCounted at hused; omega)
  have htop : (table.insertNew b key val valLen).freeTop = table.freeTop - 1 := rfl
  have hsame : (table.insertNew b key val valLen).capacity = table.capacity := rfl
  unfold UsedCounted at *
  omega

theorem usedCount_delete :
    (table.delete b i j).usedCount = u32 (table.usedCount + (2 ^ 32 - 1)) := by
  unfold delete unlink
  split <;> rfl

theorem Inv.usedCounted_delete (h : table.Inv chain) (hused : table.UsedCounted)
    (hroom : table.freeTop + 1 < table.capacity) : (table.delete b i j).UsedCounted := by
  have hcap := h.capacity_lt
  have htop := h.top_ge
  unfold UsedCounted at *
  have hval : (table.delete b i j).usedCount = table.usedCount - 1 := by
    rw [usedCount_delete, u32, show table.usedCount + (2 ^ 32 - 1) =
      table.usedCount - 1 + 2 ^ 32 by omega, Nat.add_mod_right, Nat.mod_eq_of_lt (by omega)]
  rw [hval, freeTop_delete, capacity_delete]
  omega

def Kept (keySize : ℕ) (table : NosKvTable) : Prop :=
  table.keySize = keySize ∧ table.UsedCounted ∧ ∃ chain, table.Inv chain

theorem Inv.divided (h : table.Inv chain) (hused : table.UsedCounted) : table.Divided chain := by
  refine ⟨h.isChain, fun b hb => (h.isChain b hb).nodup, ?_, h.home, ?_, h.free_inj,
    h.free_unused, ?_, hused⟩
  · intro b hb b' hb' hne i hi hi'
    exact hne (h.chain_eq hb hb' hi hi')
  · intro b hb i hi b' hb' j hj he
    exact (h.record_eq hb hb' hi hj he).2
  · intro i
    constructor
    · exact h.cover i
    · rintro (⟨b, hb, hi⟩ | ⟨k, hk, rfl⟩)
      · exact h.used_lt b hb i hi
      · exact h.free_lt k hk

theorem Kept.divided (h : table.Kept keySize) : ∃ chain, table.Divided chain := by
  obtain ⟨-, hused, chain, h⟩ := h
  exact ⟨chain, h.divided hused⟩

theorem Kept.setSubList (h : table.Kept keySize) (subList : List NosKvSub) :
    (table.setSubList i subList).Kept keySize := by
  obtain ⟨hk, hused, chain, h⟩ := h
  exact ⟨hk, hused, chain, h.setSubList i subList⟩

theorem Kept.write (h : table.Kept keySize) {call : KvWrite} (hk : call.key.length = keySize)
    (hw : table.write call = some table') : table'.Kept keySize := by
  cases call with
  | put key val valLen =>
    obtain ⟨⟨st, table', notified⟩, hput, rfl⟩ := Option.map_eq_some_iff.mp hw
    obtain ⟨rfl, hused, chain, hinv⟩ := h
    rcases hinv.nosKvPut_cases hk hput with ⟨-, rfl, -⟩ | ⟨b, hb, hlen, -, hcase⟩
    · exact ⟨rfl, hused, chain, hinv⟩
    · rcases hcase with ⟨i, hi, -, rfl, -⟩ | ⟨habsent, ht, rfl, -⟩
      · exact ⟨rfl, hused, chain, hinv.overwrite (hinv.geometry.bucketOf_lt hb) hi hlen⟩
      · exact ⟨rfl, hinv.usedCounted_insertNew hused ht, _, hinv.insertNew ht hb hk hlen habsent⟩
  | del key =>
    obtain ⟨⟨st, table'⟩, hdel, rfl⟩ := Option.map_eq_some_iff.mp hw
    obtain ⟨rfl, hused, chain, hinv⟩ := h
    rcases hinv.nosKvDel_cases hk hdel with ⟨-, rfl⟩ | ⟨b, l₁, i, l₂, hb, -, hc, -, rfl⟩
    · exact ⟨rfl, hused, chain, hinv⟩
    · have hinv' := hinv.delete (hinv.geometry.bucketOf_lt hb) hc
      have htop := hinv'.freeTop_lt
      rw [freeTop_delete, capacity_delete] at htop
      exact ⟨keySize_delete, hinv.usedCounted_delete hused htop, _, hinv'⟩
  | subscribe key sub =>
    obtain ⟨⟨st, table'⟩, hsub, rfl⟩ := Option.map_eq_some_iff.mp hw
    rcases nosKvSubscribe_cases hsub with rfl | ⟨i, -, rfl⟩
    · exact h
    · exact h.setSubList _
  | unsubscribe key sub =>
    obtain ⟨⟨st, table'⟩, hsub, rfl⟩ := Option.map_eq_some_iff.mp hw
    rcases nosKvUnsubscribe_cases hsub with rfl | ⟨i, rfl⟩
    · exact h
    · exact h.setSubList _

theorem kept_newTable_of_recordsFit {name : Bytes} {maxValSize capacity : ℕ} (hc : 0 < capacity)
    (hfit : RecordsFit keySize maxValSize capacity)
    (h : newTable name keySize maxValSize capacity = some table) : table.Kept keySize := by
  have hinv := inv_newTable_of_recordsFit hc hfit h
  obtain ⟨bucketCount, -, rfl⟩ := Option.map_eq_some_iff.mp h
  refine ⟨rfl, ?_, _, hinv⟩
  simp [UsedCounted]

theorem kept_newTable {name : Bytes} {maxValSize capacity : ℕ} (hc : 0 < capacity)
    (hfit : capacity * (sizeofNosKvEntry + keySize + maxValSize) < 2 ^ 32)
    (h : newTable name keySize maxValSize capacity = some table) : table.Kept keySize :=
  kept_newTable_of_recordsFit hc (.of_pool hc hfit) h

/-- Along every run of calls on a new table its records stay divided. -/
theorem always_divided {tables : List NosKvTable} {name : Bytes} {maxValSize capacity : ℕ}
    {memory : Bool} {calls : List KvWrite}
    (h : nosKvTableCreate tables name keySize maxValSize capacity memory =
      some (tables ++ [table], some tables.length))
    (hfit : capacity * (sizeofNosKvEntry + keySize + maxValSize) < 2 ^ 32)
    (hkeys : ∀ call ∈ calls, call.key.length = keySize) :
    Run.Always write (fun table => ∃ chain, table.Divided chain) table calls := by
  obtain ⟨hc, hnew⟩ := newTable_of_create h
  exact Run.always_of_guarded (fun _ _ _ hkept hk hw => hkept.write hk hw)
    (fun _ hkept => hkept.divided) (kept_newTable hc hfit hnew) (Run.guarded_of_forall hkeys)

/-- Two keys on a table for two, with a subscriber, and one of them deleted. -/
theorem always_divided_small_table : ∃ table,
    nosKvTableCreate [] [107, 118] 1 8 2 true = some ([] ++ [table], some 0) ∧
      Run.Always write (fun table => ∃ chain, table.Divided chain) table
        [.put [1] (some [7]) 1, .subscribe [1] ⟨1, 5⟩, .put [2] none 0, .unsubscribe [1] ⟨1, 5⟩,
          .del [1]] := by
  have hcreate : nosKvTableCreate [] [107, 118] 1 8 2 true =
      some ([] ++ [(newTable [107, 118] 1 8 2).get rfl], some ([] : List NosKvTable).length) := rfl
  refine ⟨_, hcreate, always_divided hcreate (by decide) ?_⟩
  simp [KvWrite.key]

end NosKvTable

end GeminiNOS

import GeminiNOS.Foundations.IndexChain
import GeminiNOS.Kv.Table
import Mathlib.Data.List.Perm.Subperm

/-! # The representation invariant of a table

The records below the capacity are divided between the bucket chains and the
free stack. Chains are acyclic, every chained record sits in the bucket of its
own key, and no key occurs twice.
-/

namespace GeminiNOS

/-- The size of a record and the offset of the last one are 32-bit words. -/
def RecordsFit (keySize maxValSize capacity : ℕ) : Prop :=
  sizeofNosKvEntry + keySize + maxValSize < 2 ^ 32 ∧
    (capacity - 1) * (sizeofNosKvEntry + keySize + maxValSize) < 2 ^ 32

instance (keySize maxValSize capacity : ℕ) : Decidable (RecordsFit keySize maxValSize capacity) :=
  inferInstanceAs (Decidable (_ ∧ _))

/-- A pool of less than `2 ^ 32` bytes has fitting records. -/
theorem RecordsFit.of_pool {keySize maxValSize capacity : ℕ} (hc : 0 < capacity)
    (hfit : capacity * (sizeofNosKvEntry + keySize + maxValSize) < 2 ^ 32) :
    RecordsFit keySize maxValSize capacity :=
  ⟨Nat.lt_of_le_of_lt (Nat.le_mul_of_pos_left _ hc) hfit,
    Nat.lt_of_le_of_lt (Nat.mul_le_mul_right _ (Nat.sub_le _ _)) hfit⟩

namespace NosKvTable

open Foundations IndexChain

variable {table : NosKvTable} {chain : ℕ → List ℕ} {key : Bytes} {i j b : ℕ} {entry : NosKvEntry}

def next (table : NosKvTable) (idx : ℕ) : ℕ := (table.getEntry idx).nextIdx

def keyAt (table : NosKvTable) (idx : ℕ) : Bytes := (table.getEntry idx).data.take table.keySize

def valueAt (table : NosKvTable) (idx : ℕ) : Bytes :=
  ((table.getEntry idx).data.drop table.keySize).take (table.getEntry idx).valLen

/-- The sizes of a table whose last record has an offset below `2 ^ 32`. -/
structure Geometry (table : NosKvTable) : Prop where
  entrySize_eq : table.entrySize = sizeofNosKvEntry + table.keySize + table.maxValSize
  fits : (table.capacity - 1) * table.entrySize < 2 ^ 32
  bucketCount_pos : 0 < table.bucketCount

def OnFreeStack (table : NosKvTable) (k : ℕ) : Prop := (k : ℤ) ≤ table.freeTop

/-- The representation invariant, for the nodes of every bucket chain. -/
structure Inv (table : NosKvTable) (chain : ℕ → List ℕ) : Prop where
  geometry : table.Geometry
  isChain : ∀ b < table.bucketCount,
    IsChain table.next kvInvalidIdx (table.buckets b).firstIdx (chain b)
  used_lt : ∀ b < table.bucketCount, ∀ i ∈ chain b, i < table.capacity
  home : ∀ b < table.bucketCount, ∀ i ∈ chain b, table.bucketOf (table.keyAt i) = some b
  key_unique : ∀ b < table.bucketCount, ∀ i ∈ chain b, ∀ j ∈ chain b,
    table.keyAt i = table.keyAt j → i = j
  top_ge : -1 ≤ table.freeTop
  free_lt : ∀ k, table.OnFreeStack k → table.freeStack k < table.capacity
  free_inj : ∀ k l, table.OnFreeStack k → table.OnFreeStack l →
    table.freeStack k = table.freeStack l → k = l
  free_unused : ∀ k, table.OnFreeStack k → ∀ b < table.bucketCount, table.freeStack k ∉ chain b
  cover : ∀ i < table.capacity,
    (∃ b < table.bucketCount, i ∈ chain b) ∨ ∃ k, table.OnFreeStack k ∧ table.freeStack k = i
  data_length : ∀ i < table.capacity,
    (table.getEntry i).data.length = table.keySize + table.maxValSize
  valLen_le : ∀ b < table.bucketCount, ∀ i ∈ chain b,
    (table.getEntry i).valLen ≤ table.maxValSize

theorem Geometry.entrySize_pos (g : table.Geometry) : 0 < table.entrySize := by
  rw [g.entrySize_eq, sizeofNosKvEntry]
  omega

theorem Geometry.entryOffset_eq (g : table.Geometry) (hi : i < table.capacity) :
    table.entryOffset i = i * table.entrySize := by
  apply Nat.mod_eq_of_lt
  exact Nat.lt_of_le_of_lt (Nat.mul_le_mul_right _ (Nat.le_sub_one_of_lt hi)) g.fits

theorem Geometry.entryOffset_inj (g : table.Geometry) (hi : i < table.capacity)
    (hj : j < table.capacity) (h : table.entryOffset i = table.entryOffset j) : i = j := by
  rw [g.entryOffset_eq hi, g.entryOffset_eq hj] at h
  exact Nat.eq_of_mul_eq_mul_right g.entrySize_pos h

theorem Geometry.capacity_lt (g : table.Geometry) : table.capacity < 2 ^ 31 := by
  have hpos : 16 ≤ table.entrySize := by
    rw [g.entrySize_eq, sizeofNosKvEntry]
    omega
  have := Nat.mul_le_mul_left (table.capacity - 1) hpos
  have := g.fits
  omega

theorem Geometry.ne_invalid (g : table.Geometry) (hi : i < table.capacity) : i ≠ kvInvalidIdx := by
  have := g.capacity_lt
  unfold kvInvalidIdx
  omega

theorem Geometry.bucketOf_lt (g : table.Geometry) (h : table.bucketOf key = some b) :
    b < table.bucketCount := by
  obtain ⟨hash, -, rfl⟩ := Option.map_eq_some_iff.mp h
  exact Nat.mod_lt _ g.bucketCount_pos

@[simp] theorem getEntry_setEntry_self : (table.setEntry i entry).getEntry i = entry := by
  simp [getEntry, setEntry, entryOffset]

theorem Geometry.getEntry_setEntry_of_ne (g : table.Geometry) (hi : i < table.capacity)
    (hj : j < table.capacity) (hne : j ≠ i) :
    (table.setEntry i entry).getEntry j = table.getEntry j :=
  Function.update_of_ne (fun h => hne (g.entryOffset_inj hj hi h)) _ _

theorem length_memcpyAt {data src : Bytes} {offset : ℕ} (h : offset + src.length ≤ data.length) :
    (memcpyAt data offset src).length = data.length := by
  simp only [memcpyAt, List.length_append, List.length_take, List.length_drop]
  omega

theorem take_memcpyAt {data src : Bytes} {offset n : ℕ} (h : n ≤ offset)
    (hd : offset ≤ data.length) : (memcpyAt data offset src).take n = data.take n := by
  rw [memcpyAt, List.append_assoc, List.take_append_of_le_length (by simp; omega), List.take_take,
    Nat.min_eq_left h]

theorem read_memcpyAt {data src : Bytes} {offset : ℕ} (hd : offset ≤ data.length) :
    ((memcpyAt data offset src).drop offset).take src.length = src := by
  have hl : (data.take offset).length = offset := by simp [hd]
  rw [memcpyAt, List.append_assoc, List.drop_left' hl, List.take_left' rfl]

theorem keyMatches_iff (hk : key.length = table.keySize) :
    table.KeyMatches (table.getEntry i) key ↔ table.keyAt i = key := by
  rw [KeyMatches, keyAt, ← hk, List.take_length]

/-- On a chain, the walk finds the first node with the key and the node before it. -/
theorem walk_chain (hk : key.length = table.keySize) {rounds prev head : ℕ} {l : List ℕ}
    (h : IsChain table.next kvInvalidIdx head l) (hr : l.length < rounds) :
    (table.walk key rounds prev head = .absent ∧ ∀ i ∈ l, table.keyAt i ≠ key) ∨
      ∃ l₁ i l₂, l = l₁ ++ i :: l₂ ∧ table.keyAt i = key ∧
        table.walk key rounds prev head = .found (l₁.getLastD prev) i := by
  induction l generalizing head prev rounds with
  | nil =>
    obtain ⟨rounds, rfl⟩ := Nat.exists_eq_succ_of_ne_zero (Nat.ne_zero_of_lt hr)
    obtain rfl := isChain_nil.mp h
    exact Or.inl ⟨by simp [walk], by simp⟩
  | cons i l ih =>
    obtain ⟨rounds, rfl⟩ := Nat.exists_eq_succ_of_ne_zero (Nat.ne_zero_of_lt hr)
    obtain ⟨rfl, hi, hl⟩ := h
    rw [walk, if_neg hi]
    by_cases hm : table.keyAt head = key
    · rw [if_pos ((keyMatches_iff hk).mpr hm)]
      exact Or.inr ⟨[], head, l, rfl, hm, rfl⟩
    · rw [if_neg (fun hc => hm ((keyMatches_iff hk).mp hc))]
      rcases ih hl (by simpa using hr) with ⟨hw, hall⟩ | ⟨l₁, j, l₂, rfl, hj, hw⟩
      · refine Or.inl ⟨hw, fun j hj => ?_⟩
        rcases List.mem_cons.mp hj with rfl | hj
        · exact hm
        · exact hall j hj
      · exact Or.inr ⟨head :: l₁, j, l₂, rfl, hj, by rw [List.getLastD_cons]; exact hw⟩

theorem Inv.length_chain_le (h : table.Inv chain) (hb : b < table.bucketCount) :
    (chain b).length ≤ table.capacity := by
  have hsub : chain b ⊆ List.range table.capacity := fun i hi =>
    List.mem_range.mpr (h.used_lt b hb i hi)
  have := ((h.isChain b hb).nodup.subperm hsub).length_le
  simpa using this

theorem Inv.lookup (h : table.Inv chain) (hk : key.length = table.keySize)
    (hb : b < table.bucketCount) :
    (table.lookup b key = .absent ∧ ∀ i ∈ chain b, table.keyAt i ≠ key) ∨
      ∃ l₁ i l₂, chain b = l₁ ++ i :: l₂ ∧ table.keyAt i = key ∧
        table.lookup b key = .found (l₁.getLastD kvInvalidIdx) i :=
  walk_chain hk (h.isChain b hb) (Nat.lt_succ_of_le (h.length_chain_le hb))

end NosKvTable

end GeminiNOS

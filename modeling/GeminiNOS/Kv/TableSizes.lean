import GeminiNOS.Kv.Refinement
import GeminiNOS.Foundations.WrappedSlots

/-! # Sizes of a new table

Creation doubles a 32-bit bucket count up to the capacity and cuts one allocation into
records. The doubling ends as long as there is a word for the next power of two. The records
are apart as long as neither their size nor the offset of the last one wraps.
-/

namespace GeminiNOS

open Foundations WrappedSlots

variable {keySize maxValSize capacity rounds bucketCount k : ℕ} {tables : List NosKvTable}
  {table : NosKvTable} {name : Bytes} {memory : Bool}

/-- The least power of two from 1024 on that reaches the capacity. -/
structure SizedBuckets (capacity bucketCount : ℕ) : Prop where
  eq_pow : ∃ k, bucketCount = 2 ^ k
  le : max 1024 capacity ≤ bucketCount
  lt : bucketCount < 2 * max 1024 capacity

/-- The sizing loop of `nos_kv_table_create` ends, with the right number of buckets. -/
def SizingEnds (capacity : ℕ) : Prop :=
  ∃ rounds bucketCount,
    sizeBuckets capacity rounds 1024 = some bucketCount ∧ SizedBuckets capacity bucketCount

theorem SizedBuckets.mod_lt (h : SizedBuckets capacity bucketCount) (hash : ℕ) :
    hash % bucketCount < bucketCount := by
  apply Nat.mod_lt
  have := h.le
  omega

theorem u32_two_pow (hk : k < 31) : u32 (2 ^ k <<< 1) = 2 ^ (k + 1) := by
  rw [Nat.shiftLeft_eq, ← Nat.pow_add]
  exact Nat.mod_eq_of_lt (Nat.pow_lt_pow_right (by decide) (by omega))

/-- From a power of two that is still small enough, the loop ends within the rounds that are left
up to the last word. -/
theorem sizedBuckets_of_le (hc : capacity ≤ 2 ^ 31) (hlow : 10 ≤ k) (hhigh : k ≤ 31)
    (hrounds : 32 ≤ rounds + k) (hbelow : k = 10 ∨ 2 ^ k < 2 * capacity) :
    ∃ bucketCount, sizeBuckets capacity rounds (2 ^ k) = some bucketCount ∧
      SizedBuckets capacity bucketCount := by
  induction rounds generalizing k with
  | zero => omega
  | succ rounds ih =>
    rw [sizeBuckets]
    split
    · rename_i hlt
      have hk : k < 31 := by
        by_contra hge
        obtain rfl : k = 31 := by omega
        omega
      rw [u32_two_pow hk]
      apply ih (by omega) (by omega) (by omega)
      rw [Nat.pow_succ]
      omega
    · rename_i hge
      have hmin : 2 ^ 10 ≤ 2 ^ k := Nat.pow_le_pow_right Nat.two_pos hlow
      refine ⟨_, rfl, ⟨k, rfl⟩, by omega, ?_⟩
      rcases hbelow with rfl | hbelow
      · omega
      · omega

/-- Above the last power of two the count runs through all of them, drops to zero and stays. -/
theorem sizeBuckets_eq_none (hc : 2 ^ 31 < capacity)
    (hcount : bucketCount = 0 ∨ ∃ k ≤ 31, bucketCount = 2 ^ k) :
    sizeBuckets capacity rounds bucketCount = none := by
  induction rounds generalizing bucketCount with
  | zero => rfl
  | succ rounds ih =>
    have hle : bucketCount ≤ 2 ^ 31 := by
      obtain rfl | ⟨k, hk, rfl⟩ := hcount
      · exact Nat.zero_le _
      · exact Nat.pow_le_pow_right Nat.two_pos hk
    rw [sizeBuckets, if_pos (hle.trans_lt hc)]
    apply ih
    obtain rfl | ⟨k, hk, rfl⟩ := hcount
    · exact Or.inl rfl
    · rcases Nat.lt_or_ge k 31 with hlt | hge
      · exact Or.inr ⟨k + 1, hlt, u32_two_pow hlt⟩
      · obtain rfl : k = 31 := le_antisymm hk hge
        exact Or.inl rfl

/-- The sizing loop ends if and only if a word holds the next power of two. -/
theorem sizingEnds_iff (capacity : ℕ) : SizingEnds capacity ↔ capacity ≤ 2 ^ 31 := by
  constructor
  · rintro ⟨rounds, bucketCount, hsize, -⟩
    by_contra hc
    have hnone : sizeBuckets capacity rounds 1024 = none :=
      sizeBuckets_eq_none (Nat.not_le.mp hc) (Or.inr ⟨10, by decide, rfl⟩)
    rw [hnone] at hsize
    cases hsize
  · intro hc
    have hsized : ∃ bucketCount, sizeBuckets capacity 22 (2 ^ 10) = some bucketCount ∧
        SizedBuckets capacity bucketCount :=
      sizedBuckets_of_le hc le_rfl (by decide) (by decide) (Or.inl rfl)
    exact ⟨22, hsized⟩

theorem not_sizingEnds_above_last_power : ¬ SizingEnds (2 ^ 31 + 1) := by
  rintro ⟨rounds, bucketCount, hsize, -⟩
  have hnone : sizeBuckets (2 ^ 31 + 1) rounds 1024 = none :=
    sizeBuckets_eq_none (by decide) (Or.inr ⟨10, by decide, rfl⟩)
  rw [hnone] at hsize
  cases hsize

namespace NosKvTable

/-- The bytes that a record takes behind `get_entry`. -/
def entryRange (table : NosKvTable) (idx : ℕ) : Set ℕ :=
  Set.Ico (table.entryOffset idx)
    (table.entryOffset idx + (sizeofNosKvEntry + table.keySize + table.maxValSize))

/-- The size of the pool, `calloc(capacity, entry_size)`. -/
def poolSize (table : NosKvTable) : ℕ := table.capacity * table.entrySize

/-- The records of a table do not overlap and lie inside its pool. -/
structure EntriesApart (table : NosKvTable) : Prop where
  disjoint : ∀ i j, i < table.capacity → j < table.capacity → i ≠ j →
    Disjoint (table.entryRange i) (table.entryRange j)
  inside : ∀ i < table.capacity, table.entryRange i ⊆ Set.Ico 0 table.poolSize

theorem sizes_newTable (h : newTable name keySize maxValSize capacity = some table) :
    table.capacity = capacity ∧
      table.entrySize = u32 (sizeofNosKvEntry + keySize + maxValSize) ∧
      ∀ i, table.entryRange i = slot (2 ^ 32) (u32 (sizeofNosKvEntry + keySize + maxValSize))
        (sizeofNosKvEntry + keySize + maxValSize) i := by
  obtain ⟨bucketCount, -, rfl⟩ := Option.map_eq_some_iff.mp h
  exact ⟨rfl, rfl, fun i => rfl⟩

theorem entriesApart_of_recordsFit (h : newTable name keySize maxValSize capacity = some table)
    (hfit : RecordsFit keySize maxValSize capacity) : table.EntriesApart := by
  obtain ⟨hcapacity, hentry, hrange⟩ := sizes_newTable h
  obtain ⟨hlen, hlast⟩ := hfit
  have hsize : u32 (sizeofNosKvEntry + keySize + maxValSize) =
      sizeofNosKvEntry + keySize + maxValSize := Nat.mod_eq_of_lt hlen
  have hoffset : ∀ i < capacity, i * (sizeofNosKvEntry + keySize + maxValSize) < 2 ^ 32 :=
    fun i hi => (Nat.mul_le_mul_right _ (Nat.le_sub_one_of_lt hi)).trans_lt hlast
  constructor
  · intro i j hi hj hne
    rw [hcapacity] at hi hj
    rw [hrange, hrange, hsize]
    exact disjoint_slot le_rfl (hoffset i hi) (hoffset j hj) hne
  · intro i hi
    rw [hcapacity] at hi
    rw [hrange, hsize, poolSize, hcapacity, hentry, hsize]
    exact Set.Ico_subset_Ico (Nat.zero_le _) (slot_end_le le_rfl hi (hoffset i hi))

/-- A record whose size wraps overlaps the next one, or is larger than the pool. -/
theorem recordSize_lt (h : newTable name keySize maxValSize capacity = some table)
    (hc : 0 < capacity) (hapart : table.EntriesApart) :
    sizeofNosKvEntry + keySize + maxValSize < 2 ^ 32 := by
  obtain ⟨hcapacity, hentry, hrange⟩ := sizes_newTable h
  by_contra hwrap
  have hstride : u32 (sizeofNosKvEntry + keySize + maxValSize) < 2 ^ 32 := Nat.mod_lt _ (by decide)
  have hlt := hstride.trans_le (Nat.not_lt.mp hwrap)
  obtain rfl | hmany : capacity = 1 ∨ 1 < capacity := by omega
  · have hinside := hapart.inside 0 (by omega)
    rw [hrange, slot_zero, poolSize, hcapacity, hentry, Nat.one_mul] at hinside
    have hlast := (hinside (Set.mem_Ico.mpr ⟨Nat.zero_le _, hlt⟩)).2
    exact Nat.lt_irrefl _ hlast
  · have hdisjoint := hapart.disjoint 0 1 (by omega) (by omega) (by decide)
    rw [hrange, hrange] at hdisjoint
    refine not_disjoint_of_offset_lt ?_ hdisjoint
    rw [Nat.one_mul, Nat.mod_eq_of_lt hstride]
    exact hlt

theorem recordsFit_of_entriesApart (h : newTable name keySize maxValSize capacity = some table)
    (hc : 0 < capacity) (hapart : table.EntriesApart) :
    RecordsFit keySize maxValSize capacity := by
  have hlen := recordSize_lt h hc hapart
  obtain ⟨hcapacity, -, hrange⟩ := sizes_newTable h
  refine ⟨hlen, ?_⟩
  by_contra hwrap
  have hsize : u32 (sizeofNosKvEntry + keySize + maxValSize) =
      sizeofNosKvEntry + keySize + maxValSize := Nat.mod_eq_of_lt hlen
  have hpos : 0 < sizeofNosKvEntry + keySize + maxValSize := by
    unfold sizeofNosKvEntry
    omega
  obtain ⟨i, hi, hne, hlt⟩ := exists_offset_lt hpos hlen.le (Nat.not_lt.mp hwrap)
  have hdisjoint := hapart.disjoint 0 i (by omega) (by omega) hne.symm
  rw [hrange, hrange, hsize] at hdisjoint
  exact not_disjoint_of_offset_lt hlt hdisjoint

/-- The records of a table that creation returns are apart and inside its pool if and only if
neither their size nor the offset of the last one wraps. -/
theorem entriesApart_iff_recordsFit
    (h : nosKvTableCreate tables name keySize maxValSize capacity memory =
      some (tables ++ [table], some tables.length)) :
    table.EntriesApart ↔ RecordsFit keySize maxValSize capacity := by
  obtain ⟨hc, hnew⟩ := newTable_of_create h
  exact ⟨recordsFit_of_entriesApart hnew hc, entriesApart_of_recordsFit hnew⟩

/-- A table for 100 entries. -/
theorem entriesApart_small_table : ∃ table,
    nosKvTableCreate [] [107, 118] 4 8 100 true = some ([] ++ [table], some 0) ∧
      table.EntriesApart := by
  have hcreate : nosKvTableCreate [] [107, 118] 4 8 100 true =
      some ([] ++ [(newTable [107, 118] 4 8 100).get rfl],
        some ([] : List NosKvTable).length) := rfl
  exact ⟨_, hcreate, (entriesApart_iff_recordsFit hcreate).mpr (by decide)⟩

/-- The offset of the last of `2 ^ 16 + 1` records of 64 kilobytes wraps to the first one. -/
theorem not_entriesApart_wrapped_offset : ∃ table,
    nosKvTableCreate [] [107, 118] 16 65504 65537 true = some ([] ++ [table], some 0) ∧
      ¬ table.EntriesApart := by
  have hcreate : nosKvTableCreate [] [107, 118] 16 65504 65537 true =
      some ([] ++ [(newTable [107, 118] 16 65504 65537).get rfl],
        some ([] : List NosKvTable).length) := rfl
  refine ⟨_, hcreate, fun hapart => ?_⟩
  have hfit := recordsFit_of_entriesApart (newTable_of_create hcreate).2 (by decide) hapart
  exact absurd hfit (by decide)

end NosKvTable

end GeminiNOS

import Mathlib.Data.List.Nodup
import Mathlib.Logic.Function.Basic
import Mathlib.Tactic.Common

/-! # Tables of slots

An array of slots with a count of those in use. A search by key takes the first
match. A new entry takes the slot behind the last one, with whatever is left in it,
and a removal moves the last entry into the place of the removed one. As long as
keys are distinct, the table is a finite map under its search.
-/

namespace Foundations

/-- Slots, of which those below the count are in use. -/
structure SlotTable (E : Type*) where
  slots : ℕ → E
  count : ℕ

namespace SlotTable

variable {E K : Type*} [DecidableEq K]

def findIdx (key : E → K) (t : SlotTable E) (k : K) : Option ℕ :=
  (List.range t.count).find? fun i => key (t.slots i) = k

def find (key : E → K) (t : SlotTable E) (k : K) : Option E := (t.findIdx key k).map t.slots

def set (t : SlotTable E) (i : ℕ) (e : E) : SlotTable E :=
  { t with slots := Function.update t.slots i e }

def push (t : SlotTable E) (e : E) : SlotTable E where
  slots := Function.update t.slots t.count e
  count := t.count + 1

def swapRemove (t : SlotTable E) (i : ℕ) : SlotTable E where
  slots := Function.update t.slots i (t.slots (t.count - 1))
  count := t.count - 1

def Distinct (key : E → K) (t : SlotTable E) : Prop :=
  ∀ i < t.count, ∀ j < t.count, key (t.slots i) = key (t.slots j) → i = j

variable {key : E → K} {t : SlotTable E} {i : ℕ} {k k' : K} {e : E}

theorem findIdx_eq_none : t.findIdx key k = none ↔ ∀ i < t.count, key (t.slots i) ≠ k := by
  simp [findIdx]

theorem lt_of_findIdx (h : t.findIdx key k = some i) : i < t.count :=
  List.mem_range.mp (List.mem_of_find?_eq_some h)

theorem key_of_findIdx (h : t.findIdx key k = some i) : key (t.slots i) = k := by
  simpa using List.find?_some h

theorem Distinct.findIdx_eq (h : t.Distinct key) (hi : i < t.count) :
    t.findIdx key (key (t.slots i)) = some i := by
  cases hf : t.findIdx key (key (t.slots i)) with
  | none => exact absurd rfl (findIdx_eq_none.mp hf i hi)
  | some j => rw [h j (lt_of_findIdx hf) i hi (key_of_findIdx hf)]

theorem Distinct.find_eq_some (h : t.Distinct key) :
    t.find key k = some e ↔ ∃ i < t.count, t.slots i = e ∧ key e = k := by
  constructor
  · intro hf
    obtain ⟨i, hi, rfl⟩ := Option.map_eq_some_iff.mp hf
    exact ⟨i, lt_of_findIdx hi, rfl, key_of_findIdx hi⟩
  · rintro ⟨i, hi, rfl, rfl⟩
    rw [find, h.findIdx_eq hi]
    rfl

theorem find_eq_none : t.find key k = none ↔ ∀ i < t.count, key (t.slots i) ≠ k := by
  rw [find, Option.map_eq_none_iff, findIdx_eq_none]

theorem slots_set (j : ℕ) : (t.set i e).slots j = if j = i then e else t.slots j :=
  Function.update_apply ..

theorem slots_push (j : ℕ) : (t.push e).slots j = if j = t.count then e else t.slots j :=
  Function.update_apply ..

theorem slots_swapRemove (j : ℕ) :
    (t.swapRemove i).slots j = if j = i then t.slots (t.count - 1) else t.slots j :=
  Function.update_apply ..

theorem Distinct.set (h : t.Distinct key) (hi : t.findIdx key k = some i) (he : key e = k) :
    (t.set i e).Distinct key := by
  have hkey : ∀ j, key ((t.set i e).slots j) = key (t.slots j) := by
    intro j
    rw [slots_set]
    split
    · rw [he, ‹j = i›, key_of_findIdx hi]
    · rfl
  intro a ha b hb hab
  rw [hkey, hkey] at hab
  exact h a ha b hb hab

theorem Distinct.find_set (h : t.Distinct key) (hi : t.findIdx key k = some i) (he : key e = k) :
    (t.set i e).find key k' = if k' = k then some e else t.find key k' := by
  have hlt := lt_of_findIdx hi
  split <;> rename_i hk
  · refine (h.set hi he).find_eq_some.mpr ⟨i, hlt, ?_, he.trans hk.symm⟩
    rw [slots_set, if_pos rfl]
  · refine Option.ext fun e' => ?_
    rw [(h.set hi he).find_eq_some, h.find_eq_some]
    constructor
    · rintro ⟨j, hj, hslot, hkey⟩
      rw [slots_set] at hslot
      split at hslot
      · exact absurd (hkey.symm.trans (hslot ▸ he)) hk
      · exact ⟨j, hj, hslot, hkey⟩
    · rintro ⟨j, hj, hslot, hkey⟩
      have hji : j ≠ i := by
        rintro rfl
        exact hk (hkey.symm.trans (hslot ▸ key_of_findIdx hi))
      exact ⟨j, hj, by rw [slots_set, if_neg hji, hslot], hkey⟩

theorem Distinct.push (h : t.Distinct key) (hnone : t.findIdx key k = none) (he : key e = k) :
    (t.push e).Distinct key := by
  have hne := findIdx_eq_none.mp hnone
  intro a ha b hb hab
  have ha' : a ≤ t.count := Nat.le_of_lt_succ ha
  have hb' : b ≤ t.count := Nat.le_of_lt_succ hb
  rw [slots_push, slots_push] at hab
  split at hab <;> split at hab <;> rename_i hac hbc
  · rw [hac, hbc]
  · exact absurd (hab.symm.trans he) (hne b (by omega))
  · exact absurd (hab.trans he) (hne a (by omega))
  · exact h a (by omega) b (by omega) hab

theorem Distinct.find_push (h : t.Distinct key) (hnone : t.findIdx key k = none) (he : key e = k) :
    (t.push e).find key k' = if k' = k then some e else t.find key k' := by
  have hpush := h.push hnone he
  split <;> rename_i hk
  · refine hpush.find_eq_some.mpr ⟨t.count, Nat.lt_succ_self _, ?_, he.trans hk.symm⟩
    rw [slots_push, if_pos rfl]
  · refine Option.ext fun e' => ?_
    rw [hpush.find_eq_some, h.find_eq_some]
    constructor
    · rintro ⟨j, hj, hslot, hkey⟩
      rw [slots_push] at hslot
      split at hslot
      · exact absurd (hkey.symm.trans (hslot ▸ he)) hk
      · exact ⟨j, by have := Nat.le_of_lt_succ hj; omega, hslot, hkey⟩
    · rintro ⟨j, hj, hslot, hkey⟩
      exact ⟨j, Nat.lt_succ_of_lt hj, by rw [slots_push, if_neg (by omega), hslot], hkey⟩

theorem exists_slot_swapRemove (hi : i < t.count) {j : ℕ} (hj : j < t.count) (hji : j ≠ i) :
    ∃ j' < (t.swapRemove i).count, (t.swapRemove i).slots j' = t.slots j := by
  by_cases hlast : j = t.count - 1
  · exact ⟨i, by show i < t.count - 1; omega, by rw [slots_swapRemove, if_pos rfl, hlast]⟩
  · exact ⟨j, by show j < t.count - 1; omega, by rw [slots_swapRemove, if_neg hji]⟩

theorem slots_of_swapRemove {j : ℕ} (hi : i < t.count) (hj : j < (t.swapRemove i).count) :
    ∃ j' < t.count, j' ≠ i ∧ (t.swapRemove i).slots j = t.slots j' ∧
      (j' = if j = i then t.count - 1 else j) := by
  have hj' : j < t.count - 1 := hj
  rw [slots_swapRemove]
  split
  · exact ⟨t.count - 1, by omega, by omega, rfl, rfl⟩
  · exact ⟨j, by omega, ‹_›, rfl, rfl⟩

omit [DecidableEq K] in
theorem Distinct.swapRemove (h : t.Distinct key) (hi : i < t.count) :
    (t.swapRemove i).Distinct key := by
  intro a ha b hb hab
  have ha' : a < t.count - 1 := ha
  have hb' : b < t.count - 1 := hb
  obtain ⟨a', hlt, -, hslot, rfl⟩ := slots_of_swapRemove hi ha
  obtain ⟨b', hlt', -, hslot', rfl⟩ := slots_of_swapRemove hi hb
  rw [hslot, hslot'] at hab
  have := h _ hlt _ hlt' hab
  split at this <;> split at this <;> omega

theorem Distinct.find_swapRemove (h : t.Distinct key) (hi : t.findIdx key k = some i) :
    (t.swapRemove i).find key k' = if k' = k then none else t.find key k' := by
  have hlt := lt_of_findIdx hi
  have hkey := key_of_findIdx hi
  split <;> rename_i hk
  · rw [find_eq_none]
    intro j hj he
    obtain ⟨j', hj', hne, hslot, -⟩ := slots_of_swapRemove hlt hj
    rw [hslot, hk, ← hkey] at he
    exact hne (h j' hj' i hlt he)
  · refine Option.ext fun e' => ?_
    rw [(h.swapRemove hlt).find_eq_some, h.find_eq_some]
    constructor
    · rintro ⟨j, hj, hslot, he⟩
      obtain ⟨j', hj', -, hslot', -⟩ := slots_of_swapRemove hlt hj
      exact ⟨j', hj', hslot'.symm.trans hslot, he⟩
    · rintro ⟨j, hj, hslot, he⟩
      have hji : j ≠ i := by
        rintro rfl
        exact hk (he.symm.trans (hslot ▸ hkey))
      obtain ⟨j', hj', hslot'⟩ := exists_slot_swapRemove hlt hj hji
      exact ⟨j', hj', hslot'.trans hslot, he⟩

omit [DecidableEq K] in
theorem Distinct.keys_nodup (h : t.Distinct key) :
    ((List.range t.count).map fun i => key (t.slots i)).Nodup := by
  refine List.nodup_range.map_on fun i hi j hj heq => ?_
  exact h i (List.mem_range.mp hi) j (List.mem_range.mp hj) heq

theorem Distinct.count_le {t' : SlotTable E} (h : t.Distinct key)
    (hsub : ∀ k, t'.find key k = none → t.find key k = none) : t.count ≤ t'.count := by
  have hkeys : ((List.range t.count).map fun i => key (t.slots i)) ⊆
      (List.range t'.count).map fun i => key (t'.slots i) := by
    intro k hk
    obtain ⟨i, hi, rfl⟩ := List.mem_map.mp hk
    by_contra hnot
    refine find_eq_none.mp (hsub _ (find_eq_none.mpr fun j hj heq => hnot ?_)) i
      (List.mem_range.mp hi) rfl
    exact List.mem_map.mpr ⟨j, List.mem_range.mpr hj, heq⟩
  simpa using h.keys_nodup.length_le_of_subset hkeys

theorem Distinct.count_lt {t' : SlotTable E} (h : t.Distinct key)
    (hsub : ∀ k, t'.find key k = none → t.find key k = none) (hk : t.find key k = none)
    (hk' : t'.find key k ≠ none) : t.count < t'.count := by
  obtain ⟨e, he⟩ := Option.ne_none_iff_exists'.mp hk'
  obtain ⟨i, hi, rfl⟩ := Option.map_eq_some_iff.mp he
  have hkey := key_of_findIdx hi
  have hidx : t.findIdx key k = none := Option.map_eq_none_iff.mp hk
  -- All keys are in the other table also after the further one has been pushed.
  refine (h.push hidx hkey).count_le fun k₁ hnone => ?_
  rw [h.find_push hidx hkey]
  split <;> rename_i hk₁
  · exact absurd (hk₁ ▸ hnone) hk'
  · exact hsub k₁ hnone

end SlotTable

end Foundations

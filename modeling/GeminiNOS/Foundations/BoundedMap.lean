import Mathlib.Data.Finset.Card
import Mathlib.Tactic.Common

/-! # Finite maps of bounded size

A map with finitely many live keys, at most as many as its capacity. Writing to
a live key always succeeds, writing to a new one unless the map is full.
-/

namespace Foundations

/-- A map with at most `capacity` live keys. -/
structure BoundedMap (K V : Type*) (capacity : ℕ) where
  find : K → Option V
  live : Finset K
  mem_live : ∀ k, k ∈ live ↔ (find k).isSome
  card_le : live.card ≤ capacity

namespace BoundedMap

variable {K V : Type*} {capacity : ℕ} [DecidableEq K]

def empty : BoundedMap K V capacity where
  find _ := none
  live := ∅
  mem_live _ := by simp
  card_le := by simp

def Full (m : BoundedMap K V capacity) : Prop := m.live.card = capacity

instance (m : BoundedMap K V capacity) : Decidable m.Full := inferInstanceAs (Decidable (_ = _))

theorem card_insert_le (m : BoundedMap K V capacity) {k : K}
    (h : (m.find k).isSome ∨ ¬ m.Full) : (insert k m.live).card ≤ capacity := by
  rcases h with h | h
  · rw [Finset.insert_eq_of_mem ((m.mem_live k).mpr h)]
    exact m.card_le
  · have := Finset.card_insert_le k m.live
    have := m.card_le
    unfold Full at h
    omega

/-- Bind a key that is live already, or for which there is room. -/
def set (m : BoundedMap K V capacity) (k : K) (v : V) (h : (m.find k).isSome ∨ ¬ m.Full) :
    BoundedMap K V capacity where
  find := Function.update m.find k (some v)
  live := insert k m.live
  mem_live k' := by
    by_cases he : k' = k
    · simp [he]
    · simp [he, m.mem_live]
  card_le := m.card_insert_le h

def erase (m : BoundedMap K V capacity) (k : K) : BoundedMap K V capacity where
  find := Function.update m.find k none
  live := m.live.erase k
  mem_live k' := by
    by_cases he : k' = k
    · simp [he]
    · simp [he, m.mem_live]
  card_le := (Finset.card_erase_le).trans m.card_le

theorem card_set_of_live (m : BoundedMap K V capacity) {k : K} (v : V)
    (h : (m.find k).isSome) : (m.set k v (Or.inl h)).live.card = m.live.card :=
  congrArg Finset.card (Finset.insert_eq_of_mem ((m.mem_live k).mpr h))

theorem card_set_of_absent (m : BoundedMap K V capacity) {k : K} (v : V) (h : m.find k = none)
    (hf : ¬ m.Full) : (m.set k v (Or.inr hf)).live.card = m.live.card + 1 :=
  Finset.card_insert_of_notMem fun hk => by simp [m.mem_live, h] at hk

theorem card_erase_of_live (m : BoundedMap K V capacity) {k : K} (h : (m.find k).isSome) :
    (m.erase k).live.card + 1 = m.live.card :=
  Finset.card_erase_add_one ((m.mem_live k).mpr h)

end BoundedMap

end Foundations

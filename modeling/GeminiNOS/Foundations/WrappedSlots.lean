import Mathlib.Order.CompletePartialOrder
import Mathlib.Order.Interval.Set.Disjoint
import Mathlib.Tactic.Common

/-! # Slots at wrapped offsets

Slots of one length are addressed by multiples of a stride, as words that wrap at `m`. While
the multiples stay below `m`, slots no longer than the stride are apart. One multiple that
wraps already makes two slots overlap, or puts a slot behind a block of the wrapped size.
-/

namespace Foundations.WrappedSlots

variable {m stride len n i j : ℕ}

/-- The positions of slot `i`. -/
def slot (m stride len i : ℕ) : Set ℕ := Set.Ico (i * stride % m) (i * stride % m + len)

theorem offset_mem_slot (hlen : 0 < len) : i * stride % m ∈ slot m stride len i :=
  Set.left_mem_Ico.mpr (Nat.lt_add_of_pos_right hlen)

theorem slot_zero : slot m stride len 0 = Set.Ico 0 len := by
  rw [slot, Nat.zero_mul, Nat.zero_mod, Nat.zero_add]

theorem disjoint_slot (hlen : len ≤ stride) (hi : i * stride < m) (hj : j * stride < m)
    (hne : i ≠ j) : Disjoint (slot m stride len i) (slot m stride len j) := by
  have hapart : ∀ k l, k < l → k * stride + len ≤ l * stride := by
    intro k l hkl
    have hmul := Nat.mul_le_mul_right stride (Nat.succ_le_of_lt hkl)
    rw [Nat.succ_mul] at hmul
    omega
  rw [slot, slot, Nat.mod_eq_of_lt hi, Nat.mod_eq_of_lt hj, Set.Ico_disjoint_Ico]
  rcases Nat.lt_or_gt_of_ne hne with hlt | hlt
  · have := hapart i j hlt
    omega
  · have := hapart j i hlt
    omega

/-- A slot whose offset does not wrap ends inside a block of `n` strides. -/
theorem slot_end_le (hlen : len ≤ stride) (hi : i < n) (hlt : i * stride < m) :
    i * stride % m + len ≤ n * stride := by
  have hmul := Nat.mul_le_mul_right stride (Nat.succ_le_of_lt hi)
  rw [Nat.succ_mul] at hmul
  rw [Nat.mod_eq_of_lt hlt]
  omega

/-- A slot whose offset is inside the first one overlaps it. -/
theorem not_disjoint_of_offset_lt (hlt : i * stride % m < len) :
    ¬ Disjoint (slot m stride len 0) (slot m stride len i) := by
  rw [Set.not_disjoint_iff, slot_zero]
  exact ⟨_, ⟨Nat.zero_le _, hlt⟩, offset_mem_slot (Nat.zero_lt_of_lt hlt)⟩

/-- The first offset that wraps falls into the first slot. -/
theorem exists_offset_lt (hpos : 0 < stride) (hle : stride ≤ m) (h : m ≤ (n - 1) * stride) :
    ∃ i < n, i ≠ 0 ∧ i * stride % m < stride := by
  have hm : 0 < m := Nat.lt_of_lt_of_le hpos hle
  obtain ⟨k, hk⟩ : ∃ k, k = (m - 1) / stride := ⟨_, rfl⟩
  have hlow : k * stride ≤ m - 1 := hk ▸ Nat.div_mul_le_self (m - 1) stride
  have hhigh : m - 1 < (k + 1) * stride := by
    rw [hk, Nat.mul_comm]
    exact Nat.lt_mul_div_succ (m - 1) hpos
  have hkn : k < n - 1 := by
    by_contra hge
    have := Nat.mul_le_mul_right stride (Nat.not_lt.mp hge)
    omega
  refine ⟨k + 1, by omega, Nat.succ_ne_zero k, ?_⟩
  rw [Nat.succ_mul] at hhigh ⊢
  rw [Nat.mod_eq_sub_mod (by omega), Nat.mod_eq_of_lt (by omega)]
  omega

/-- A block whose size has wrapped is too small for one of its slots. -/
theorem exists_slot_end_gt (hpos : 0 < stride) (hm : 0 < m) (h : m ≤ n * stride) :
    ∃ i < n, n * stride % m < i * stride % m + stride := by
  have hlt : n * stride % m < m := Nat.mod_lt _ hm
  obtain ⟨block, hblock⟩ : ∃ block, block = n * stride % m := ⟨_, rfl⟩
  rw [← hblock] at hlt ⊢
  have hlow : block / stride * stride ≤ block := Nat.div_mul_le_self block stride
  have hhigh : block < stride * (block / stride + 1) := Nat.lt_mul_div_succ block hpos
  refine ⟨block / stride, ?_, ?_⟩
  · by_contra hge
    have := Nat.mul_le_mul_right stride (Nat.not_lt.mp hge)
    omega
  · rw [Nat.mod_eq_of_lt (by omega)]
    rw [Nat.mul_comm, Nat.succ_mul] at hhigh
    exact hhigh

end Foundations.WrappedSlots

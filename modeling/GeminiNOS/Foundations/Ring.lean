import Mathlib.Data.List.Basic
import Mathlib.Data.Nat.ModEq
import Mathlib.Logic.Function.Basic
import Mathlib.Tactic.Common

/-! # Rings

A ring of `n` slots is used through two counters that only grow, and whose
remainders are the head and the tail of the ring. As long as they are less than
`n` apart, the remainders determine their distance. A ring buffer, which keeps
one slot free, is a queue under its head and its tail.
-/

namespace Foundations.Ring

variable {n o c i j : ℕ}

/-- The number of slots from the head to the tail. -/
def between (n head tail : ℕ) : ℕ := (tail + n - head) % n

theorem slot_inj (hi : o ≤ i) (hin : i < o + n) (hj : o ≤ j) (hjn : j < o + n)
    (h : i % n = j % n) : i = j := by
  rcases Nat.le_total i j with hij | hij
  · have hdvd : n ∣ j - i := (Nat.modEq_iff_dvd' hij).mp h
    have := Nat.eq_zero_of_dvd_of_lt hdvd (by omega)
    omega
  · have hdvd : n ∣ i - j := (Nat.modEq_iff_dvd' hij).mp h.symm
    have := Nat.eq_zero_of_dvd_of_lt hdvd (by omega)
    omega

theorem exists_position (hi : i < n) (o : ℕ) : ∃ c, o ≤ c ∧ c < o + n ∧ c % n = i := by
  have hr : o % n < n := Nat.mod_lt o (by omega)
  have hsum : o + (i + n - o % n) = i + n * (o / n + 1) := by
    have := Nat.div_add_mod o n
    rw [Nat.mul_add]
    omega
  refine ⟨o + (i + n - o % n) % n, Nat.le_add_right .., ?_, ?_⟩
  · exact Nat.add_lt_add_left (Nat.mod_lt _ (by omega)) o
  · rw [Nat.add_mod_mod, hsum, Nat.add_mul_mod_self_left, Nat.mod_eq_of_lt hi]

theorem between_mod (h : o ≤ c) (hn : c < o + n) : between n (o % n) (c % n) = c - o := by
  obtain ⟨d, rfl⟩ := Nat.exists_eq_add_of_le h
  have hr : o % n < n := Nat.mod_lt o (by omega)
  rw [between, Nat.add_mod o d n, Nat.mod_eq_of_lt (show d < n by omega)]
  by_cases hd : o % n + d < n
  · rw [Nat.mod_eq_of_lt hd, show o % n + d + n - o % n = d + n by omega, Nat.add_mod_right,
      Nat.mod_eq_of_lt (by omega)]
    omega
  · have hwrap : (o % n + d) % n = o % n + d - n := by
      rw [Nat.mod_eq_sub_mod (by omega), Nat.mod_eq_of_lt (by omega)]
    rw [hwrap, show o % n + d - n + n - o % n = d by omega, Nat.mod_eq_of_lt (by omega)]
    omega

theorem between_self (n o : ℕ) : between n o o = 0 := by
  rw [between, Nat.add_sub_cancel_left, Nat.mod_self]

theorem empty_iff (h : o ≤ c) (hn : c < o + n) : o % n = c % n ↔ o = c :=
  ⟨slot_inj le_rfl (by omega) h hn, fun he => he ▸ rfl⟩

/-- One more step of the tail meets the head when a single slot is left. -/
theorem full_iff (h : o ≤ c) (hn : c < o + n) : (c + 1) % n = o % n ↔ c + 1 = o + n := by
  constructor
  · intro he
    by_contra hne
    have := slot_inj (o := o) (by omega) (by omega) le_rfl (by omega) he
    omega
  · intro he
    rw [he, Nat.add_mod_right]

end Foundations.Ring

open Foundations.Ring

namespace Foundations

/-- A ring buffer of `n` slots. -/
structure RingBuffer (α : Type*) (n : ℕ) where
  slots : ℕ → α
  head : ℕ
  tail : ℕ
  head_lt : head < n
  tail_lt : tail < n

namespace RingBuffer

variable {α : Type*} {n : ℕ} (r : RingBuffer α n) {a : α}

def init (null : α) (hn : 0 < n) : RingBuffer α n where
  slots _ := null
  head := 0
  tail := 0
  head_lt := hn
  tail_lt := hn

def IsEmpty : Prop := r.head = r.tail

def IsFull : Prop := (r.tail + 1) % n = r.head

instance : Decidable r.IsEmpty := inferInstanceAs (Decidable (_ = _))

instance : Decidable r.IsFull := inferInstanceAs (Decidable (_ = _))

def push (a : α) : RingBuffer α n where
  slots := Function.update r.slots r.tail a
  head := r.head
  tail := (r.tail + 1) % n
  head_lt := r.head_lt
  tail_lt := Nat.mod_lt _ (Nat.zero_lt_of_lt r.tail_lt)

def advance : RingBuffer α n where
  slots := r.slots
  head := (r.head + 1) % n
  tail := r.tail
  head_lt := Nat.mod_lt _ (Nat.zero_lt_of_lt r.head_lt)
  tail_lt := r.tail_lt

def first : α := r.slots r.head

def used : ℕ := between n r.head r.tail

def contents : List α := (List.range r.used).map fun i => r.slots ((r.head + i) % n)

theorem used_lt : r.used < n := Nat.mod_lt _ (Nat.zero_lt_of_lt r.head_lt)

theorem length_contents : r.contents.length = r.used := by simp [contents]

theorem tail_eq : r.tail = (r.head + r.used) % n := by
  have hh := r.head_lt
  have ht := r.tail_lt
  unfold used between
  by_cases h : r.head ≤ r.tail
  · rw [show r.tail + n - r.head = r.tail - r.head + n by omega, Nat.add_mod_right,
      Nat.mod_eq_of_lt (show r.tail - r.head < n by omega), Nat.add_sub_cancel' h,
      Nat.mod_eq_of_lt ht]
  · rw [Nat.mod_eq_of_lt (show r.tail + n - r.head < n by omega),
      show r.head + (r.tail + n - r.head) = r.tail + n by omega, Nat.add_mod_right,
      Nat.mod_eq_of_lt ht]

theorem used_eq : r.used =
    if r.head ≤ r.tail then r.tail - r.head else n - (r.head - r.tail) := by
  have hh := r.head_lt
  have ht := r.tail_lt
  unfold used between
  split
  · rw [show r.tail + n - r.head = r.tail - r.head + n by omega, Nat.add_mod_right,
      Nat.mod_eq_of_lt (by omega)]
  · rw [Nat.mod_eq_of_lt (by omega)]
    omega

theorem isEmpty_iff : r.IsEmpty ↔ r.used = 0 := by
  have hh := r.head_lt
  have ht := r.tail_lt
  unfold IsEmpty
  rw [used_eq]
  split <;> omega

theorem isFull_iff : r.IsFull ↔ r.used + 1 = n := by
  have h := full_iff (o := r.head) (c := r.head + r.used) (by omega)
    (Nat.add_lt_add_left r.used_lt _)
  rw [← Nat.mod_add_mod, ← r.tail_eq, Nat.mod_eq_of_lt r.head_lt] at h
  unfold IsFull
  omega

theorem used_push (h : ¬ r.IsFull) : (r.push a).used = r.used + 1 := by
  have hlt := r.used_lt
  have hne := mt r.isFull_iff.mpr h
  have hbetween := between_mod (n := n) (o := r.head) (c := r.head + r.used + 1) (by omega)
    (by omega)
  rw [← Nat.mod_add_mod (r.head + r.used), ← r.tail_eq, Nat.mod_eq_of_lt r.head_lt] at hbetween
  show between n r.head ((r.tail + 1) % n) = r.used + 1
  omega

theorem contents_push (h : ¬ r.IsFull) : (r.push a).contents = r.contents ++ [a] := by
  have hlt := r.used_lt
  have hne := mt r.isFull_iff.mpr h
  rw [contents, r.used_push h, List.range_succ, List.map_append, contents]
  congr 1
  · refine List.map_congr_left fun i hi => ?_
    have hi' := List.mem_range.mp hi
    show Function.update r.slots r.tail a ((r.head + i) % n) = _
    refine Function.update_of_ne (fun he => ?_) _ _
    rw [r.tail_eq] at he
    have := slot_inj (o := r.head) (by omega) (by omega) (by omega) (by omega) he
    omega
  · show [Function.update r.slots r.tail a ((r.head + r.used) % n)] = [a]
    rw [← r.tail_eq, Function.update_self]

theorem used_advance (h : ¬ r.IsEmpty) : r.advance.used + 1 = r.used := by
  have hlt := r.used_lt
  have hne := mt r.isEmpty_iff.mpr h
  have hbetween := between_mod (n := n) (o := r.head + 1) (c := r.head + r.used) (by omega)
    (by omega)
  rw [← r.tail_eq] at hbetween
  show between n ((r.head + 1) % n) r.tail + 1 = r.used
  omega

theorem contents_advance (h : ¬ r.IsEmpty) :
    r.contents = r.first :: r.advance.contents := by
  rw [contents, ← r.used_advance h, List.range_succ_eq_map, List.map_cons, List.map_map, contents]
  congr 1
  · rw [Nat.add_zero, Nat.mod_eq_of_lt r.head_lt]
    rfl
  · refine List.map_congr_left fun i _ => ?_
    show r.slots ((r.head + (i + 1)) % n) = r.slots (((r.head + 1) % n + i) % n)
    rw [Nat.mod_add_mod, Nat.add_right_comm, Nat.add_assoc]

theorem contents_of_isEmpty (h : r.IsEmpty) : r.contents = [] := by
  rw [contents, r.isEmpty_iff.mp h]
  rfl

theorem contents_init (null : α) (hn : 0 < n) : (init null hn).contents = [] :=
  contents_of_isEmpty _ rfl

end RingBuffer

end Foundations

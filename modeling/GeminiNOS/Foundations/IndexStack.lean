import Mathlib.Algebra.Ring.Int.Defs
import Mathlib.Algebra.Ring.Nat
import Mathlib.Data.List.Perm.Subperm
import Mathlib.Logic.Function.Basic
import Mathlib.Tactic.Common

/-! # Stacks of indices

A stack of indices in an array, with the position of its top. An empty stack has
the top `-1`. Distinct indices below a bound fill at most as many places.
-/

namespace Foundations.IndexStack

variable {stack : ℕ → ℕ} {top : ℤ} {i n : ℕ}

def entries (stack : ℕ → ℕ) (top : ℤ) : List ℕ := (List.range (top + 1).toNat).map stack

theorem length_entries (stack : ℕ → ℕ) (h : -1 ≤ top) :
    ((entries stack top).length : ℤ) = top + 1 := by
  rw [entries, List.length_map, List.length_range]
  omega

theorem entries_pop (h : 0 ≤ top) :
    entries stack top = entries stack (top - 1) ++ [stack top.toNat] := by
  rw [entries, show (top + 1).toNat = top.toNat + 1 by omega, List.range_succ, List.map_append,
    entries, show (top - 1 + 1).toNat = top.toNat by omega]
  rfl

theorem entries_push (h : -1 ≤ top) :
    entries (Function.update stack (top + 1).toNat i) (top + 1) = entries stack top ++ [i] := by
  rw [entries_pop (by omega), Function.update_self]
  congr 1
  rw [entries, entries, show top + 1 - 1 = top by omega]
  refine List.map_congr_left fun k hk => Function.update_of_ne ?_ _ _
  have := List.mem_range.mp hk
  omega

theorem top_lt (h : -1 ≤ top) (hnodup : (entries stack top).Nodup)
    (hlt : ∀ i ∈ entries stack top, i < n) : top + 1 ≤ n := by
  have hsub := hnodup.subperm fun i hi => List.mem_range.mpr (hlt i hi)
  have hlen := hsub.length_le
  rw [List.length_range] at hlen
  have := length_entries stack h
  omega

end Foundations.IndexStack

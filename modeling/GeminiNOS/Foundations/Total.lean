import Mathlib.Algebra.BigOperators.Fin
import Mathlib.Algebra.Order.BigOperators.Group.Finset
import Mathlib.Logic.Function.Basic

/-! # Totals over a family

A finite family of parts, each with an amount. When one part changes, the total
changes by as much.
-/

namespace Foundations

variable {ι : Type*} [Fintype ι] [DecidableEq ι] {α : ι → Type*}

def total (amount : (i : ι) → α i → ℕ) (parts : (i : ι) → α i) : ℕ := ∑ i, amount i (parts i)

variable (amount : (i : ι) → α i → ℕ) (parts : (i : ι) → α i) (i : ι) (part : α i)

theorem total_update : total amount (Function.update parts i part) + amount i (parts i) =
    total amount parts + amount i part := by
  have hrest : ∀ f : (i : ι) → α i,
      total amount f = amount i (f i) + ∑ j ∈ Finset.univ.erase i, amount j (f j) := fun f =>
    (Finset.add_sum_erase _ _ (Finset.mem_univ i)).symm
  have hsame : ∑ j ∈ Finset.univ.erase i, amount j (Function.update parts i part j) =
      ∑ j ∈ Finset.univ.erase i, amount j (parts j) := by
    refine Finset.sum_congr rfl fun j hj => ?_
    rw [Function.update_of_ne (Finset.ne_of_mem_erase hj)]
  rw [hrest, hrest parts, hsame, Function.update_self]
  omega

omit [DecidableEq ι] in
theorem le_total : amount i (parts i) ≤ total amount parts :=
  Finset.single_le_sum (f := fun i => amount i (parts i)) (fun _ _ => Nat.zero_le _)
    (Finset.mem_univ i)

end Foundations

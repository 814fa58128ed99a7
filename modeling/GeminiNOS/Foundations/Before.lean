import Mathlib.Data.List.Basic
import Mathlib.Tactic.Common

/-! # Order of occurrence

One element of a list occurs before another. Lists that grow at their end keep this
order, and put what is new behind everything else.
-/

namespace Foundations

variable {α : Type*} {l l' : List α} {a b c : α}

/-- Some occurrence of the first element is before some occurrence of the second one. -/
def Before (l : List α) (a b : α) : Prop := [a, b].Sublist l

theorem Before.left_mem (h : Before l a b) : a ∈ l := h.subset List.mem_cons_self

theorem Before.right_mem (h : Before l a b) : b ∈ l :=
  h.subset (List.mem_cons_of_mem a List.mem_cons_self)

theorem Before.append (h : Before l a b) (l' : List α) : Before (l ++ l') a b :=
  h.trans (List.sublist_append_left l l')

theorem not_before_nil : ¬ Before [] a b := fun h => List.not_mem_nil h.left_mem

theorem before_concat : Before (l ++ [c]) a b ↔ Before l a b ∨ a ∈ l ∧ b = c := by
  constructor
  · intro h
    obtain ⟨l₁, l₂, he, h₁, h₂⟩ := List.sublist_append_iff.mp h
    rcases List.sublist_singleton.mp h₂ with rfl | rfl
    · rw [List.append_nil] at he
      rw [← he] at h₁
      exact .inl h₁
    · have hsplit : [a] ++ [b] = l₁ ++ [c] := he
      obtain ⟨rfl, hbc⟩ := List.append_inj' hsplit rfl
      exact .inr ⟨List.singleton_sublist.mp h₁, List.singleton_inj.mp hbc⟩
  · rintro (h | ⟨ha, rfl⟩)
    · exact h.append [c]
    · exact (List.singleton_sublist.mpr ha).append (List.Sublist.refl [b])

theorem Before.of_concat_notMem (h : Before (l ++ [c]) a b) (hbc : b ≠ c) : Before l a b := by
  rcases before_concat.mp h with h | ⟨-, rfl⟩
  · exact h
  · exact absurd rfl hbc

theorem split_concat {l₁ l₂ : List α} (h : l ++ [c] = l₁ ++ a :: l₂) :
    l₁ = l ∧ a = c ∨ ∃ l₂', l = l₁ ++ a :: l₂' := by
  rcases List.eq_nil_or_concat l₂ with rfl | ⟨l₂', b, rfl⟩
  · obtain ⟨rfl, hc⟩ := List.append_inj' h rfl
    exact .inl ⟨rfl, (List.singleton_inj.mp hc).symm⟩
  · have hsplit : l ++ [c] = (l₁ ++ a :: l₂') ++ [b] := by
      rw [h, List.append_assoc, List.cons_append, List.concat_eq_append]
    obtain ⟨rfl, -⟩ := List.append_inj' hsplit rfl
    exact .inr ⟨l₂', rfl⟩

end Foundations

import Mathlib.Tactic.Common

/-! # What has held since

A log has its last entry first. A condition has held since another one if no later entry
cancels it. Both conditions see an entry together with the part of the log before it.
-/

namespace Foundations

variable {α : Type*} {happens cancels : α → List α → Prop} {log : List α} {e : α}

/-- Some entry meets the first condition, and no later entry meets the second one. -/
def Since (happens cancels : α → List α → Prop) (log : List α) : Prop :=
  ∃ later e earlier, log = later ++ e :: earlier ∧ happens e earlier ∧
    ∀ l c l', later = l ++ c :: l' → ¬ cancels c (l' ++ e :: earlier)

theorem not_since_nil : ¬ Since happens cancels ([] : List α) := by
  rintro ⟨later, e, earlier, he, -⟩
  exact absurd he.symm (List.append_ne_nil_of_right_ne_nil later (List.cons_ne_nil e earlier))

/-- The last entry decides: it starts the condition, cancels it, or leaves it as it was. -/
theorem since_cons :
    Since happens cancels (e :: log) ↔
      happens e log ∨ ¬ cancels e log ∧ Since happens cancels log := by
  constructor
  · rintro ⟨later, d, earlier, he, hd, hkept⟩
    cases later with
    | nil =>
      obtain ⟨rfl, rfl⟩ := List.cons.inj he
      exact Or.inl hd
    | cons c later =>
      obtain ⟨rfl, rfl⟩ := List.cons.inj he
      refine Or.inr ⟨hkept [] e later rfl, later, d, earlier, rfl, hd, ?_⟩
      rintro l c l' rfl
      exact hkept (e :: l) c l' rfl
  · rintro (hd | ⟨hc, later, d, earlier, rfl, hd, hkept⟩)
    · refine ⟨[], e, log, rfl, hd, ?_⟩
      intro l c l' h
      exact absurd h.symm (List.append_ne_nil_of_right_ne_nil l (List.cons_ne_nil c l'))
    · refine ⟨e :: later, d, earlier, rfl, hd, ?_⟩
      intro l c l' h
      cases l with
      | nil =>
        obtain ⟨rfl, rfl⟩ := List.cons.inj h
        exact hc
      | cons b l =>
        obtain ⟨-, rfl⟩ := List.cons.inj h
        exact hkept l c l' rfl

end Foundations

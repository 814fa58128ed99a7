import Mathlib.Data.List.Basic
import Mathlib.Logic.Function.Basic
import Mathlib.Tactic.Common

/-! # Items on the move

A family of lists says which items are at which place. A change of it is bounded by
the items that may leave a place and by those that may come to one.
-/

namespace Foundations

variable {ι α : Type*}

/-- From one family to another, no other items leave and no other items come. -/
structure Moves (f g : ι → List α) (leaves comes : ι → α → Prop) : Prop where
  leave : ∀ i, ∀ a ∈ f i, a ∈ g i ∨ leaves i a
  come : ∀ i, ∀ a ∈ g i, a ∈ f i ∨ comes i a

namespace Moves

variable {f g h : ι → List α} {leaves leaves' comes comes' : ι → α → Prop} {i : ι} {a : α}
  {as : List α}

theorem refl (f : ι → List α) : Moves f f leaves comes :=
  ⟨fun _ _ ha => .inl ha, fun _ _ ha => .inl ha⟩

theorem trans (h₁ : Moves f g leaves comes) (h₂ : Moves g h leaves comes) :
    Moves f h leaves comes where
  leave i a ha := by
    rcases h₁.leave i a ha with hg | hl
    · exact h₂.leave i a hg
    · exact .inr hl
  come i a ha := by
    rcases h₂.come i a ha with hg | hc
    · exact h₁.come i a hg
    · exact .inr hc

theorem mono (h₁ : Moves f g leaves comes) (hl : ∀ i a, leaves i a → leaves' i a)
    (hc : ∀ i a, comes i a → comes' i a) : Moves f g leaves' comes' where
  leave i a ha := (h₁.leave i a ha).imp_right (hl i a)
  come i a ha := (h₁.come i a ha).imp_right (hc i a)

theorem update [DecidableEq ι] (hl : ∀ a ∈ f i, a ∈ as ∨ leaves i a)
    (hc : ∀ a ∈ as, a ∈ f i ∨ comes i a) : Moves f (Function.update f i as) leaves comes where
  leave j a ha := by
    rw [Function.update_apply]
    split
    · obtain rfl := ‹j = i›
      exact hl a ha
    · exact .inl ha
  come j a ha := by
    rw [Function.update_apply] at ha
    split at ha
    · obtain rfl := ‹j = i›
      exact hc a ha
    · exact .inl ha

theorem append [DecidableEq ι] (hc : ∀ a ∈ as, comes i a) :
    Moves f (Function.update f i (f i ++ as)) leaves comes := by
  apply update
  · exact fun a ha => .inl (List.mem_append_left as ha)
  · intro a ha
    exact (List.mem_append.mp ha).imp_right (hc a)

theorem tail [DecidableEq ι] (hf : f i = a :: as) (hl : leaves i a) :
    Moves f (Function.update f i as) leaves comes := by
  apply update <;> rw [hf]
  · intro b hb
    rcases List.mem_cons.mp hb with rfl | hb
    · exact .inr hl
    · exact .inl hb
  · exact fun b hb => .inl (List.mem_cons_of_mem a hb)

end Moves

end Foundations

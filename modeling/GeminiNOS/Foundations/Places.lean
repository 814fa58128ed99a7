import Mathlib.Logic.Function.Basic
import Mathlib.Tactic.Common

/-! # Items in places

Every valid item is at exactly one place. Operations put an item somewhere, whether
it was elsewhere or nowhere, or take one away.
-/

namespace Foundations

variable {P I : Type*} {At At' : P → I → Prop} {Valid Valid' : I → Prop} {i : I} {p : P}

/-- The valid items are at one place each, and nothing else is anywhere. -/
structure Partition (At : P → I → Prop) (Valid : I → Prop) : Prop where
  valid : ∀ p i, At p i → Valid i
  placed : ∀ i, Valid i → ∃ p, At p i
  unique : ∀ p q i, At p i → At q i → p = q

namespace Partition

theorem congr (h : Partition At Valid) (hAt : ∀ q j, At' q j ↔ At q j)
    (hValid : ∀ j, Valid' j ↔ Valid j) : Partition At' Valid' := by
  constructor
  · intro q j hj
    exact (hValid j).mpr (h.valid q j ((hAt q j).mp hj))
  · intro j hj
    obtain ⟨q, hq⟩ := h.placed j ((hValid j).mp hj)
    exact ⟨q, (hAt q j).mpr hq⟩
  · intro q q' j hj hj'
    exact h.unique q q' j ((hAt q j).mp hj) ((hAt q' j).mp hj')

theorem put (h : Partition At Valid)
    (hAt : ∀ q j, At' q j ↔ (j = i ∧ q = p) ∨ (j ≠ i ∧ At q j))
    (hValid : ∀ j, Valid' j ↔ j = i ∨ Valid j) : Partition At' Valid' := by
  constructor
  · intro q j hj
    rcases (hAt q j).mp hj with ⟨he, -⟩ | ⟨-, hj⟩
    · exact (hValid j).mpr (Or.inl he)
    · exact (hValid j).mpr (Or.inr (h.valid q j hj))
  · intro j hj
    by_cases he : j = i
    · exact ⟨p, (hAt p j).mpr (Or.inl ⟨he, rfl⟩)⟩
    · obtain ⟨q, hq⟩ := h.placed j (((hValid j).mp hj).resolve_left he)
      exact ⟨q, (hAt q j).mpr (Or.inr ⟨he, hq⟩)⟩
  · intro q q' j hj hj'
    rcases (hAt q j).mp hj with ⟨he, rfl⟩ | ⟨hne, hj⟩ <;>
      rcases (hAt q' j).mp hj' with ⟨he', rfl⟩ | ⟨hne', hj'⟩
    · rfl
    · exact absurd he hne'
    · exact absurd he' hne
    · exact h.unique q q' j hj hj'

theorem remove (h : Partition At Valid) (hAt : ∀ q j, At' q j ↔ j ≠ i ∧ At q j)
    (hValid : ∀ j, Valid' j ↔ j ≠ i ∧ Valid j) : Partition At' Valid' := by
  constructor
  · intro q j hj
    obtain ⟨hne, hj⟩ := (hAt q j).mp hj
    exact (hValid j).mpr ⟨hne, h.valid q j hj⟩
  · intro j hj
    obtain ⟨hne, hj⟩ := (hValid j).mp hj
    obtain ⟨q, hq⟩ := h.placed j hj
    exact ⟨q, (hAt q j).mpr ⟨hne, hq⟩⟩
  · intro q q' j hj hj'
    exact h.unique q q' j ((hAt q j).mp hj).2 ((hAt q' j).mp hj').2

theorem insert (h : Partition At Valid) (hnew : ¬ Valid i)
    (hplace : ∀ j, At' p j ↔ j = i ∨ At p j) (hother : ∀ q j, q ≠ p → (At' q j ↔ At q j))
    (hValid : ∀ j, Valid' j ↔ j = i ∨ Valid j) : Partition At' Valid' := by
  refine h.put (p := p) (fun q j => ?_) hValid
  have hvalid : At q j → j ≠ i := by
    rintro hj rfl
    exact hnew (h.valid q j hj)
  by_cases hq : q = p
  · subst hq
    rw [hplace]
    tauto
  · rw [hother q j hq]
    tauto

theorem move {r : P} (h : Partition At Valid) (hat : At p i)
    (hfrom : ∀ j, At' p j ↔ j ≠ i ∧ At p j) (hto : ∀ j, At' r j ↔ j = i ∨ At r j)
    (hother : ∀ q j, q ≠ p → q ≠ r → (At' q j ↔ At q j)) : Partition At' Valid := by
  have hp : p ≠ r := by
    rintro rfl
    exact ((hfrom i).mp ((hto i).mpr (.inl rfl))).1 rfl
  have hunique : ∀ q, At q i → q = p := fun q hq => h.unique q p i hq hat
  have hvalid := h.valid p i hat
  refine h.put (p := r) (i := i) (fun q j => ?_) fun j => ?_
  · by_cases hqp : q = p
    · subst hqp
      rw [hfrom]
      tauto
    · have hnot : At q j → j ≠ i := by
        rintro hj rfl
        exact hqp (hunique q hj)
      by_cases hqr : q = r
      · subst hqr
        rw [hto]
        tauto
      · rw [hother q j hqp hqr]
        tauto
  · constructor
    · exact .inr
    · rintro (rfl | hj)
      · exact hvalid
      · exact hj

end Partition

end Foundations

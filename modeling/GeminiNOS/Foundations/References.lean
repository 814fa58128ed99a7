import Mathlib.Data.List.Basic
import Mathlib.Data.List.Count
import Mathlib.Tactic.Common

/-! # References

Holders are listed once for every reference that they have. The number of
references to an object goes with the entries that name it.
-/

namespace Foundations.References

variable {P B : Type*} [DecidableEq B] {holders : List (P × B)} {p : P} {b c : B}

def refs (holders : List (P × B)) (b : B) : ℕ := holders.countP fun h => h.2 = b

@[simp] theorem refs_nil : refs ([] : List (P × B)) b = 0 := rfl

@[simp] theorem refs_cons_self : refs ((p, b) :: holders) b = refs holders b + 1 := by
  simp [refs]

theorem refs_cons_of_ne (h : c ≠ b) : refs ((p, b) :: holders) c = refs holders c := by
  simp [refs, Ne.symm h]

theorem refs_pos (h : (p, b) ∈ holders) : 0 < refs holders b :=
  List.countP_pos_iff.mpr ⟨_, h, by simp⟩

theorem refs_eq_zero_iff : refs holders b = 0 ↔ ∀ p, (p, b) ∉ holders := by
  constructor
  · intro h p hp
    exact absurd (refs_pos hp) (by omega)
  · intro h
    refine List.countP_eq_zero.mpr ?_
    rintro ⟨p, c⟩ hp hc
    obtain rfl : c = b := of_decide_eq_true hc
    exact h p hp

theorem exists_of_refs_pos (h : 0 < refs holders b) : ∃ p, (p, b) ∈ holders := by
  by_contra hnone
  rw [refs_eq_zero_iff.mpr fun p hp => hnone ⟨p, hp⟩] at h
  omega

variable [DecidableEq P]

theorem refs_erase_self (h : (p, b) ∈ holders) :
    refs (holders.erase (p, b)) b + 1 = refs holders b := by
  have hperm := (List.perm_cons_erase h).countP_eq fun h => h.2 = b
  simpa [refs] using hperm.symm

theorem refs_erase_of_ne (h : c ≠ b) : refs (holders.erase (p, b)) c = refs holders c := by
  by_cases hmem : (p, b) ∈ holders
  · have hperm := (List.perm_cons_erase hmem).countP_eq fun h => h.2 = c
    simpa [refs, Ne.symm h] using hperm.symm
  · rw [List.erase_of_not_mem hmem]

theorem refs_cons_erase (q : P) (h : (p, b) ∈ holders) :
    refs ((q, b) :: holders.erase (p, b)) c = refs holders c := by
  by_cases hc : c = b
  · rw [hc, refs_cons_self, refs_erase_self h]
  · rw [refs_cons_of_ne hc, refs_erase_of_ne hc]

end Foundations.References

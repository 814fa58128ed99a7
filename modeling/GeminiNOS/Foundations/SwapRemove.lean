import Mathlib.Data.List.Perm.Basic
import Mathlib.Tactic.Common

/-! # Removal by the last entry

An array that keeps its entries together removes one by moving its last entry into
the place of it. All other entries stay where they are.
-/

namespace Foundations

variable {α : Type*}

/-- The last entry takes the place of the entry at an index. -/
def swapRemove (l : List α) (i : ℕ) : List α :=
  match l.getLast? with
  | none => l
  | some last => (l.set i last).dropLast

variable {l : List α} {i j : ℕ} {a : α}

theorem mem_of_mem_swapRemove (h : a ∈ swapRemove l i) : a ∈ l := by
  unfold swapRemove at h
  split at h
  · exact h
  · rename_i last hlast
    rcases List.mem_or_eq_of_mem_set ((List.dropLast_sublist _).subset h) with h | rfl
    · exact h
    · exact List.mem_of_getLast? hlast

theorem getElem?_swapRemove_of_ne (hj : j + 1 < l.length) (hne : j ≠ i) :
    (swapRemove l i)[j]? = l[j]? := by
  unfold swapRemove
  split
  · rfl
  · rw [List.getElem?_dropLast, if_pos (by rw [List.length_set]; omega),
      List.getElem?_set_ne hne.symm]

theorem getElem?_swapRemove_self (hi : i + 1 < l.length) :
    (swapRemove l i)[i]? = l.getLast? := by
  unfold swapRemove
  split <;> rename_i hlast
  · rw [List.getLast?_eq_none_iff.mp hlast] at hi
    cases hi
  · rw [List.getElem?_dropLast, if_pos (by rw [List.length_set]; omega),
      List.getElem?_set_self (by omega), hlast]

theorem swapRemove_perm (h : l[i]? = some a) : (a :: swapRemove l i).Perm l := by
  obtain ⟨hi, rfl⟩ := List.getElem?_eq_some_iff.mp h
  unfold swapRemove
  split <;> rename_i hlast
  · rw [List.getLast?_eq_none_iff.mp hlast] at hi
    cases hi
  · rename_i last
    have hset : (l.set i last).getLast? = some last := by
      rw [List.getLast?_eq_getElem?, List.length_set, List.getElem?_set]
      split
      · rfl
      · rw [← List.getLast?_eq_getElem?, hlast]
    have hsplit : (l.set i last).dropLast ++ [last] = l.set i last :=
      List.dropLast_append_getLast? last hset
    -- Both sides are the entries without the one at the index, and one more.
    have hperm := (List.set_perm_cons_eraseIdx hi last).symm
    rw [← hsplit] at hperm
    have hrest := (hperm.trans (List.perm_append_singleton _ _)).cons_inv
    exact (hrest.symm.cons _).trans (List.getElem_cons_eraseIdx_perm hi)

/-- Where the keys are different, the entry at an index is erased by its key. -/
theorem eraseIdx_eq_filter {κ : Type*} [DecidableEq κ] {key : α → κ} (hkeys : (l.map key).Nodup)
    (h : l[i]? = some a) : l.eraseIdx i = l.filter fun b => key b ≠ key a := by
  induction l generalizing i with
  | nil => cases h
  | cons b l ih =>
    obtain ⟨hb, hl⟩ := List.nodup_cons.mp hkeys
    cases i with
    | zero =>
      obtain rfl := Option.some.inj h
      rw [List.eraseIdx_cons_zero, List.filter_cons_of_neg (by simp), eq_comm,
        List.filter_eq_self]
      intro c hc
      refine decide_eq_true fun hkey => hb ?_
      rw [← hkey]
      exact List.mem_map_of_mem hc
    | succ i =>
      have hne : key b ≠ key a := by
        intro hkey
        refine hb ?_
        rw [hkey]
        exact List.mem_map_of_mem (List.mem_of_getElem? h)
      rw [List.eraseIdx_cons_succ, ih hl h, List.filter_cons_of_pos (by simpa using hne)]

end Foundations

import Mathlib.Data.List.Basic
import Mathlib.Data.List.Nodup
import Mathlib.Logic.Function.Basic
import Mathlib.Tactic.Common

/-! # Linked lists through an index function

Nodes are indices, a function gives the successor of each, and a null index ends
a list. A chain relates the head of such a list to the nodes met on the way, so
that pushes and unlinks become operations on lists.
-/

namespace Foundations.IndexChain

variable {ι : Type*} {next next' : ι → ι} {null head i j p : ι} {l l₁ l₂ : List ι}

/-- Following the successors from `head` meets the nodes `l` and ends at the null index. -/
def IsChain (next : ι → ι) (null : ι) : ι → List ι → Prop
  | head, [] => head = null
  | head, i :: l => head = i ∧ i ≠ null ∧ IsChain next null (next i) l

@[simp] theorem isChain_nil : IsChain next null head [] ↔ head = null := Iff.rfl

theorem IsChain.head_eq_null_iff (h : IsChain next null head l) : head = null ↔ l = [] := by
  cases l with
  | nil => simpa using h
  | cons i l =>
    obtain ⟨rfl, hi, -⟩ := h
    simp [hi]

theorem IsChain.head_mem (h : IsChain next null head l) (hne : head ≠ null) : head ∈ l := by
  cases l with
  | nil => exact absurd h hne
  | cons i l => exact h.1 ▸ List.mem_cons_self

theorem IsChain.congr (h : IsChain next null head l) (he : ∀ i ∈ l, next' i = next i) :
    IsChain next' null head l := by
  induction l generalizing head with
  | nil => exact h
  | cons i l ih =>
    refine ⟨h.1, h.2.1, ?_⟩
    rw [he i List.mem_cons_self]
    exact ih h.2.2 fun j hj => he j (List.mem_cons_of_mem i hj)

theorem IsChain.update [DecidableEq ι] (h : IsChain next null head l) (hi : i ∉ l) (x : ι) :
    IsChain (Function.update next i x) null head l :=
  h.congr fun _ hj => Function.update_of_ne (ne_of_mem_of_not_mem hj hi) _ _

theorem IsChain.push (h : IsChain next null head l) (hi : i ≠ null) (hn : next i = head) :
    IsChain next null i (i :: l) :=
  ⟨rfl, hi, hn.symm ▸ h⟩

theorem IsChain.unique (h : IsChain next null head l₁) (h' : IsChain next null head l₂) :
    l₁ = l₂ := by
  induction l₁ generalizing head l₂ with
  | nil =>
    subst h
    exact (h'.head_eq_null_iff.mp rfl).symm
  | cons i l ih =>
    obtain ⟨rfl, hi, h⟩ := h
    cases l₂ with
    | nil => exact absurd h' hi
    | cons j l' =>
      obtain ⟨rfl, -, h'⟩ := h'
      rw [ih h h']

/-- From each of its nodes on, a chain is a chain. -/
theorem IsChain.suffix (h : IsChain next null head (l₁ ++ i :: l₂)) :
    IsChain next null i (i :: l₂) := by
  induction l₁ generalizing head with
  | nil =>
    obtain ⟨rfl, h⟩ := h
    exact ⟨rfl, h⟩
  | cons j l₁ ih => exact ih h.2.2

/-- Chains are acyclic. -/
theorem IsChain.nodup (h : IsChain next null head l) : l.Nodup := by
  induction l generalizing head with
  | nil => exact List.nodup_nil
  | cons i l ih =>
    refine List.nodup_cons.mpr ⟨fun hi => ?_, ih h.2.2⟩
    obtain ⟨l₁, l₂, rfl⟩ := List.append_of_mem hi
    obtain ⟨rfl, h⟩ := h
    have hsuffix : IsChain next null head (head :: l₂) := h.2.suffix
    have hwhole : IsChain next null head (head :: (l₁ ++ head :: l₂)) := ⟨rfl, h⟩
    have := congrArg List.length (hsuffix.unique hwhole)
    simp only [List.length_cons, List.length_append] at this
    omega

theorem IsChain.unlink [DecidableEq ι] (h : IsChain next null head (l₁ ++ p :: i :: l₂)) :
    IsChain (Function.update next p (next i)) null head (l₁ ++ p :: l₂) := by
  have hnodup := h.nodup
  induction l₁ generalizing head with
  | nil =>
    obtain ⟨rfl, hp, -, hi, h⟩ := h
    refine ⟨rfl, hp, ?_⟩
    rw [Function.update_self]
    simp only [List.nil_append, List.nodup_cons, List.mem_cons, not_or] at hnodup
    exact h.update hnodup.1.2 _
  | cons j l₁ ih =>
    simp only [List.cons_append, List.nodup_cons] at hnodup
    refine ⟨h.1, h.2.1, ?_⟩
    have hj : j ≠ p := fun he => hnodup.1 (by simp [he])
    rw [Function.update_of_ne hj]
    exact ih h.2.2 hnodup.2

section OfList

variable [DecidableEq ι]

def behind : List ι → ι → Option ι
  | [], _ => none
  | i :: l, j => if i = j then l.head? else behind l j

/-- The elements of a list without duplicates, each linked to the one behind it. -/
theorem isChain_behind (h : l.Nodup) :
    IsChain (fun i => i.bind (behind l)) none l.head? (l.map some) := by
  induction l with
  | nil => rfl
  | cons i l ih =>
    obtain ⟨hi, hl⟩ := List.nodup_cons.mp h
    refine ⟨rfl, Option.some_ne_none i, ?_⟩
    have hnext : (some i).bind (behind (i :: l)) = l.head? := if_pos rfl
    show IsChain _ none ((some i).bind (behind (i :: l))) _
    rw [hnext]
    refine (ih hl).congr fun j hj => ?_
    obtain ⟨j, hmem, rfl⟩ := List.mem_map.mp hj
    exact if_neg (ne_of_mem_of_not_mem hmem hi).symm

end OfList

end Foundations.IndexChain

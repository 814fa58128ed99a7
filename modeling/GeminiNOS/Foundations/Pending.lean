import GeminiNOS.Foundations.Before

/-! # Events ruled out until another one

Lists of events in which one event, once it has occurred, rules a second one out until
a third one occurs, and what is still ruled out at their end.
-/

namespace Foundations

variable {α : Type*} {es : List α} {a b c e : α}

/-- The first event has occurred, and the second one not since. -/
def Pending (es : List α) (a c : α) : Prop := ∃ pre mid, es = pre ++ a :: mid ∧ c ∉ mid

/-- After the first event the second one does not occur until the third one has. -/
def NoneUntil (es : List α) (a b c : α) : Prop :=
  ∀ pre mid post, es = pre ++ a :: (mid ++ b :: post) → c ∈ mid

theorem Pending.mem (h : Pending es a c) : a ∈ es := by
  obtain ⟨pre, mid, rfl, -⟩ := h
  exact List.mem_append_right pre List.mem_cons_self

theorem not_pending_nil : ¬ Pending [] a c := fun h => List.not_mem_nil h.mem

theorem pending_concat : Pending (es ++ [e]) a c ↔ e = a ∨ e ≠ c ∧ Pending es a c := by
  constructor
  · rintro ⟨pre, mid, he, hc⟩
    rcases List.eq_nil_or_concat mid with rfl | ⟨mid, b, rfl⟩
    · exact .inl (List.singleton_inj.mp (List.append_inj' he rfl).2)
    · rw [List.concat_eq_append] at he hc
      have hsplit : es ++ [e] = (pre ++ a :: mid) ++ [b] := by
        rw [he, List.append_assoc, List.cons_append]
      obtain ⟨rfl, heb⟩ := List.append_inj' hsplit rfl
      obtain rfl := List.singleton_inj.mp heb
      rw [List.mem_append, not_or, List.mem_singleton] at hc
      exact .inr ⟨Ne.symm hc.2, pre, mid, rfl, hc.1⟩
  · rintro (rfl | ⟨hne, pre, mid, rfl, hc⟩)
    · exact ⟨es, [], rfl, List.not_mem_nil⟩
    · refine ⟨pre, mid ++ [e], by rw [List.append_assoc, List.cons_append], ?_⟩
      rw [List.mem_append, not_or, List.mem_singleton]
      exact ⟨hc, hne.symm⟩

theorem noneUntil_nil : NoneUntil [] a b c := by
  intro pre mid post he
  exact absurd he.symm (List.append_ne_nil_of_right_ne_nil pre (List.cons_ne_nil a _))

theorem noneUntil_concat :
    NoneUntil (es ++ [e]) a b c ↔ NoneUntil es a b c ∧ (e = b → ¬ Pending es a c) := by
  constructor
  · refine fun h => ⟨fun pre mid post he => h pre mid (post ++ [e]) ?_, ?_⟩
    · rw [he, List.append_assoc, List.cons_append, List.append_assoc, List.cons_append]
    · rintro rfl ⟨pre, mid, rfl, hc⟩
      exact hc (h pre mid [] (by rw [List.append_assoc, List.cons_append]))
  · rintro ⟨h, hlast⟩ pre mid post he
    have hsplit : es ++ [e] = (pre ++ a :: mid) ++ b :: post := by
      rw [he, List.append_assoc, List.cons_append]
    rcases split_concat hsplit with ⟨hes, rfl⟩ | ⟨post', hes⟩
    · by_contra hc
      exact hlast rfl ⟨pre, mid, hes.symm, hc⟩
    · exact h pre mid post' (by rw [hes, List.append_assoc, List.cons_append])

end Foundations

import Mathlib.Logic.Function.Basic
import Mathlib.Tactic.Common

/-! # Runs of labelled transition systems

A system is a partial step function on labelled actions, where `none` marks an
action that is not enabled. Invariants of single steps lift to runs, also when
a step keeps the invariant only under a condition on the state before it.
-/

namespace Foundations.Run

variable {σ α : Type*} (step : σ → α → Option σ)

/-- The state after a list of actions, provided that each of them is enabled. -/
def exec : σ → List α → Option σ
  | s, [] => some s
  | s, a :: as => (step s a).bind fun s' => exec s' as

def Reachable (s s' : σ) : Prop := ∃ as, exec step s as = some s'

/-- A predicate holds in every state that a run visits, the first one included. -/
def Always (P : σ → Prop) : σ → List α → Prop
  | s, [] => P s
  | s, a :: as => P s ∧ ∀ s', step s a = some s' → Always P s' as

/-- Every step that a run takes meets a condition on the state before it. -/
def Guarded (G : σ → α → Prop) : σ → List α → Prop
  | _, [] => True
  | s, a :: as => ∀ s', step s a = some s' → G s a ∧ Guarded G s' as

variable {step} {P I : σ → Prop} {G : σ → α → Prop} {s s' t : σ} {a : α} {as bs : List α}

@[simp] theorem exec_nil : exec step s [] = some s := rfl

@[simp] theorem exec_cons :
    exec step s (a :: as) = (step s a).bind fun s' => exec step s' as := rfl

theorem exec_append (as bs : List α) (s : σ) :
    exec step s (as ++ bs) = (exec step s as).bind fun s' => exec step s' bs := by
  induction as generalizing s with
  | nil => rfl
  | cons a as ih =>
    simp only [List.cons_append, exec_cons, Option.bind_assoc, ih]

theorem exec_trans (h : exec step s as = some s') (h' : exec step s' bs = some t) :
    exec step s (as ++ bs) = some t := by
  rw [exec_append, h, Option.bind_some, h']

/-- A run that ends, with what follows from what is read at its end. -/
theorem exists_exec {β : Type*} (f : σ → β) (b : β) (hread : (exec step s as).map f = some b)
    (h : ∀ t, f t = b → P t) : ∃ t, exec step s as = some t ∧ P t := by
  obtain ⟨t, ht, hb⟩ := Option.map_eq_some_iff.mp hread
  exact ⟨t, ht, h t hb⟩

theorem Reachable.refl (s : σ) : Reachable step s s := ⟨[], rfl⟩

theorem Reachable.single (h : step s a = some s') : Reachable step s s' :=
  ⟨[a], by simp [h]⟩

theorem Reachable.trans (h : Reachable step s s') (h' : Reachable step s' t) :
    Reachable step s t := by
  obtain ⟨as, ha⟩ := h
  obtain ⟨bs, hb⟩ := h'
  exact ⟨as ++ bs, exec_trans ha hb⟩

theorem Guarded.cons (h : step s a = some s') (ha : G s a) (hg : Guarded step G s' as) :
    Guarded step G s (a :: as) := by
  intro t ht
  obtain rfl := Option.some.inj (h.symm.trans ht)
  exact ⟨ha, hg⟩

theorem guarded_of_forall {G : α → Prop} (h : ∀ a ∈ as, G a) :
    Guarded step (fun _ a => G a) s as := by
  induction as generalizing s with
  | nil => trivial
  | cons a as ih =>
    intro t _
    exact ⟨h a List.mem_cons_self, ih fun b hb => h b (List.mem_cons_of_mem a hb)⟩

/-- An inductive invariant holds at the end of every run from a state that has it. -/
theorem exec_invariant (hstep : ∀ s a s', I s → step s a = some s' → I s')
    (h₀ : I s) (h : exec step s as = some s') : I s' := by
  induction as generalizing s with
  | nil =>
    obtain rfl := Option.some.inj h
    exact h₀
  | cons a as ih =>
    obtain ⟨t, ht, h⟩ := Option.bind_eq_some_iff.mp h
    exact ih (hstep s a t h₀ ht) h

/-- An inductive invariant that also sees the actions up to now. -/
theorem exec_history {H : List α → σ → Prop}
    (hstep : ∀ as s a s', H as s → step s a = some s' → H (as ++ [a]) s')
    (h₀ : H [] s) (h : exec step s as = some s') : H as s' := by
  suffices hfrom : ∀ as' : List α, H as' s → H (as' ++ as) s' from hfrom [] h₀
  clear h₀
  induction as generalizing s with
  | nil =>
    obtain rfl := Option.some.inj h
    intro as' hs
    rwa [List.append_nil]
  | cons a as ih =>
    obtain ⟨t, ht, h⟩ := Option.bind_eq_some_iff.mp h
    intro as' hs
    have hrest := ih h (as' ++ [a]) (hstep as' s a t hs ht)
    rwa [List.append_assoc] at hrest

theorem Reachable.invariant (h : Reachable step s s')
    (hstep : ∀ s a s', I s → step s a = some s' → I s') (h₀ : I s) : I s' := by
  obtain ⟨as, h⟩ := h
  exact exec_invariant hstep h₀ h

theorem Always.head (h : Always step P s as) : P s := by
  cases as with
  | nil => exact h
  | cons a as => exact h.1

theorem Always.last (h : Always step P s as) (he : exec step s as = some s') : P s' := by
  induction as generalizing s with
  | nil =>
    obtain rfl := Option.some.inj he
    exact h
  | cons a as ih =>
    obtain ⟨t, ht, he⟩ := Option.bind_eq_some_iff.mp he
    exact ih (h.2 t ht) he

theorem Always.exists_last {β : Type*} (f : σ → β) (b : β) (h : Always step P s as)
    (hread : (exec step s as).map f = some b) : ∃ t, P t ∧ f t = b := by
  obtain ⟨t, ht, hb⟩ := Option.map_eq_some_iff.mp hread
  exact ⟨t, h.last ht, hb⟩

theorem always_of_guarded (hstep : ∀ s a s', I s → G s a → step s a = some s' → I s')
    (hP : ∀ s, I s → P s) (h₀ : I s) (hg : Guarded step G s as) : Always step P s as := by
  induction as generalizing s with
  | nil => exact hP s h₀
  | cons a as ih =>
    refine ⟨hP s h₀, fun t ht => ?_⟩
    obtain ⟨ha, hg⟩ := hg t ht
    exact ih (hstep s a t h₀ ha ht) hg

theorem always_of_invariant (hstep : ∀ s a s', I s → step s a = some s' → I s')
    (hP : ∀ s, I s → P s) (h₀ : I s) : Always step P s as := by
  induction as generalizing s with
  | nil => exact hP s h₀
  | cons a as ih => exact ⟨hP s h₀, fun t ht => ih (hstep s a t h₀ ht)⟩

/-- A condition that keeps an invariant, and with it implies a second condition, makes every run
that meets the first meet the second. -/
theorem Guarded.mono {G' : σ → α → Prop}
    (hstep : ∀ s a s', I s → G s a → step s a = some s' → I s')
    (hG : ∀ s a, I s → G s a → G' s a) (h₀ : I s) (hg : Guarded step G s as) :
    Guarded step G' s as := by
  induction as generalizing s with
  | nil => trivial
  | cons a as ih =>
    intro t ht
    obtain ⟨ha, hg⟩ := hg t ht
    exact ⟨hG s a h₀ ha, ih (hstep s a t h₀ ha ht) hg⟩

/-- When a step from an invariant state leads to the predicate exactly if it meets the
condition, a run stays inside the predicate exactly if all its steps meet the condition. -/
theorem always_iff_guarded (hP : ∀ s, I s → P s)
    (hkeep : ∀ s a s', I s → step s a = some s' → P s' → I s')
    (hiff : ∀ s a s', I s → step s a = some s' → (P s' ↔ G s a)) (h₀ : I s) :
    Always step P s as ↔ Guarded step G s as := by
  induction as generalizing s with
  | nil => exact iff_of_true (hP s h₀) trivial
  | cons a as ih =>
    constructor
    · rintro ⟨-, h⟩ t ht
      have hPt := (h t ht).head
      exact ⟨(hiff s a t h₀ ht).mp hPt, (ih (hkeep s a t h₀ ht hPt)).mp (h t ht)⟩
    · intro h
      refine ⟨hP s h₀, fun t ht => ?_⟩
      obtain ⟨ha, hg⟩ := h t ht
      exact (ih (hkeep s a t h₀ ht ((hiff s a t h₀ ht).mpr ha))).mpr hg

instance decidableGuarded [∀ s a, Decidable (G s a)] :
    (s : σ) → (as : List α) → Decidable (Guarded step G s as)
  | _, [] => inferInstanceAs (Decidable True)
  | s, a :: as =>
    have (s' : σ) : Decidable (Guarded step G s' as) := decidableGuarded s' as
    inferInstanceAs (Decidable (∀ s' ∈ step s a, G s a ∧ Guarded step G s' as))

end Foundations.Run

import GeminiNOS.Foundations.Run

/-! # Agents on a shared state

Agents run programs side by side, one operation at a time. Every agent carries a
ghost state of its own, which records what its operations have given it. A rule
for each operation, in terms of that ghost state alone, lets a program be proved
without the programs of the other agents.
-/

namespace Foundations

/-- Programs over operations with responses. An iteration repeats its body, with a state, until
the body gives a result. -/
inductive Prog {Op : Type} (Resp : Op → Type) : Type → Type 1 where
  | ret {α : Type} (a : α) : Prog Resp α
  | op {α : Type} (o : Op) (k : Resp o → Prog Resp α) : Prog Resp α
  | iter {α σ β : Type} (s : σ) (body : σ → Prog Resp (σ ⊕ β)) (k : β → Prog Resp α) : Prog Resp α

namespace Prog

variable {Op : Type} {Resp : Op → Type} {α β γ σ G : Type}

def bind {α β : Type} : Prog Resp α → (α → Prog Resp β) → Prog Resp β
  | ret a, f => f a
  | op o k, f => op o fun r => (k r).bind f
  | iter s body k, f => iter s body fun b => (k b).bind f

instance : Monad (Prog Resp) where
  pure := ret
  bind := bind

def perform (o : Op) : Prog Resp (Resp o) := op o ret

def repeating (s : σ) (body : σ → Prog Resp (σ ⊕ β)) : Prog Resp β := iter s body ret

def unroll (s : σ) (body : σ → Prog Resp (σ ⊕ β)) (k : β → Prog Resp α) : Prog Resp α :=
  (body s).bind (Sum.elim (fun s' => iter s' body k) k)

/-- The rules of the operations: what an agent has to know for one, and what it knows after it. -/
structure Rules {Op : Type} (Resp : Op → Type) (G : Type) where
  pre : Op → G → Prop
  post : (o : Op) → G → Resp o → G → Prop

variable {L : Rules Resp G}

/-- What an agent has to know for its program to follow the rules and to end in a
postcondition. Every iteration has an invariant. -/
def wp (L : Rules Resp G) {α : Type} : Prog Resp α → (α → G → Prop) → G → Prop
  | ret a, Q, g => Q a g
  | op o k, Q, g => L.pre o g ∧ ∀ r g', L.post o g r g' → (k r).wp L Q g'
  | iter s body k, Q, g => ∃ I : _ → G → Prop, I s g ∧ ∀ s' g', I s' g' →
    (body s').wp L (Sum.elim I fun b => (k b).wp L Q) g'

variable {p : Prog Resp α} {f : α → Prog Resp β} {Q R : α → G → Prop} {g : G}

theorem wp_mono {α : Type} {p : Prog Resp α} {Q R : α → G → Prop} {g : G}
    (h : p.wp L Q g) (hQR : ∀ a g, Q a g → R a g) : p.wp L R g := by
  induction p generalizing g with
  | ret a => exact hQR a g h
  | op o k ih => exact ⟨h.1, fun r g' hr => ih r (h.2 r g' hr) hQR⟩
  | iter s body k ihbody ihk =>
    obtain ⟨I, hs, hI⟩ := h
    refine ⟨I, hs, fun s' g' hs' => ihbody s' (hI s' g' hs') ?_⟩
    rintro (s'' | b) g'' h
    · exact h
    · exact ihk b h hQR

theorem wp_bind {α β : Type} {p : Prog Resp α} {f : α → Prog Resp β} {Q : β → G → Prop} {g : G}
    (h : p.wp L (fun a => (f a).wp L Q) g) : (p.bind f).wp L Q g := by
  induction p generalizing g with
  | ret a => exact h
  | op o k ih => exact ⟨h.1, fun r g' hr => ih r (h.2 r g' hr)⟩
  | iter s body k ihbody ihk =>
    obtain ⟨I, hs, hI⟩ := h
    refine ⟨I, hs, fun s' g' hs' => wp_mono (hI s' g' hs') ?_⟩
    rintro (s'' | b) g'' h
    · exact h
    · exact ihk b h

theorem wp_unroll {s : σ} {body : σ → Prog Resp (σ ⊕ β)} {k : β → Prog Resp α}
    (h : (iter s body k).wp L Q g) : (unroll s body k).wp L Q g := by
  obtain ⟨I, hs, hI⟩ := h
  refine wp_bind (wp_mono (hI s g hs) ?_)
  rintro (s' | b) g' h
  · exact ⟨I, h, hI⟩
  · exact h

end Prog

/-- Agents with their programs and their ghost states. -/
structure Agents {Op : Type} (Resp : Op → Type) (A S G : Type) where
  shared : S
  prog : A → Prog Resp Unit
  ghost : A → G

namespace Agents

variable {Op : Type} {Resp : Op → Type} {A E S G : Type} [DecidableEq A]

/-- An operation of an agent, in an environment: its response and its effect, if it is enabled. -/
abbrev Effect {Op : Type} (Resp : Op → Type) (A E S G : Type) :=
  A → E → (o : Op) → S → G → Option (Resp o × S × G)

/-- A step of an agent: its next operation, or the next round of its iteration. -/
def step (run : Effect Resp A E S G) (c : Agents Resp A S G) :
    A × E → Option (Agents Resp A S G)
  | (a, e) =>
    match c.prog a with
    | .ret _ => none
    | .op o k => (run a e o c.shared (c.ghost a)).map fun (r, shared, g) =>
        { shared := shared
          prog := Function.update c.prog a (k r)
          ghost := Function.update c.ghost a g }
    | .iter s body k => some { c with prog := Function.update c.prog a (.unroll s body k) }

variable {run : Effect Resp A E S G} {Fit : E → Op → S → Prop} {L : Prog.Rules Resp G}
  {Inv : S → (A → G) → Prop}

omit [DecidableEq A] in
/-- The operation that an agent is about to make meets a condition on the shared state. -/
def Next (Fit : E → Op → S → Prop) (c : Agents Resp A S G) : A × E → Prop
  | (a, e) =>
    match c.prog a with
    | .op o _ => Fit e o c.shared
    | _ => True

instance [∀ e o s, Decidable (Fit e o s)] (c : Agents Resp A S G) :
    DecidablePred (c.Next Fit) := fun (a, e) =>
  match h : c.prog a with
  | .ret _ | .iter .. => decidable_of_iff True (by simp [Next, h])
  | .op o _ => decidable_of_iff (Fit e o c.shared) (by simp [Next, h])

/-- The operations that meet a condition obey their rules and keep an invariant, if an agent meets
the condition of its operation. -/
def Obeys (run : Effect Resp A E S G) (Fit : E → Op → S → Prop) (L : Prog.Rules Resp G)
    (Inv : S → (A → G) → Prop) : Prop :=
  ∀ a e o s gs r s' g', Inv s gs → L.pre o (gs a) → Fit e o s →
    run a e o s (gs a) = some (r, s', g') →
    L.post o (gs a) r g' ∧ Inv s' (Function.update gs a g')

/-- All programs follow the rules and end in their postconditions, and the invariant holds. -/
structure Meets (L : Prog.Rules Resp G) (Inv : S → (A → G) → Prop) (Q : A → G → Prop)
    (c : Agents Resp A S G) : Prop where
  inv : Inv c.shared c.ghost
  prog : ∀ a, (c.prog a).wp L (fun _ => Q a) (c.ghost a)

theorem Meets.step (hobeys : Obeys run Fit L Inv) {Q : A → G → Prop} {c c' : Agents Resp A S G}
    {action : A × E} (h : c.Meets L Inv Q) (hfit : c.Next Fit action)
    (hs : c.step run action = some c') : c'.Meets L Inv Q := by
  obtain ⟨a, e⟩ := action
  have hprog := h.prog a
  simp only [Agents.step] at hs
  split at hs <;> rename_i hp
  · cases hs
  · rw [hp] at hprog
    simp only [Next, hp] at hfit
    obtain ⟨⟨r, shared, g⟩, hrun, rfl⟩ := Option.map_eq_some_iff.mp hs
    obtain ⟨hpost, hinv⟩ := hobeys a e _ _ _ r shared g h.inv hprog.1 hfit hrun
    refine ⟨hinv, fun b => ?_⟩
    simp only [Function.update_apply]
    split
    · exact ‹b = a› ▸ hprog.2 r g hpost
    · exact h.prog b
  · rw [hp] at hprog
    obtain rfl := Option.some.inj hs
    refine ⟨h.inv, fun b => ?_⟩
    simp only [Function.update_apply]
    split
    · exact ‹b = a› ▸ Prog.wp_unroll hprog
    · exact h.prog b

omit [DecidableEq A] in
theorem Meets.returned {Q : A → G → Prop} {c : Agents Resp A S G} (h : c.Meets L Inv Q) {a : A}
    (ha : c.prog a = .ret ()) : Q a (c.ghost a) := by
  have hprog := h.prog a
  rw [ha] at hprog
  exact hprog

/-- Programs that follow the rules end a run whose operations meet the condition as they should. -/
theorem Meets.exec (hobeys : Obeys run Fit L Inv) {Q : A → G → Prop} {c c' : Agents Resp A S G}
    (h : c.Meets L Inv Q) {actions : List (A × E)}
    (hfit : Run.Guarded (Agents.step run) (Next Fit) c actions)
    (hrun : Run.exec (Agents.step run) c actions = some c') : c'.Meets L Inv Q :=
  (Run.always_of_guarded (fun _ _ _ hc ha hs => hc.step hobeys ha hs) (fun _ hc => hc) h hfit).last
    hrun

end Agents

end Foundations

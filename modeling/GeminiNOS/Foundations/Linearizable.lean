import GeminiNOS.Foundations.Run

/-! # Linearizable histories

Threads call the operations of an object, also from inside of operations that have
taken effect. In the atomic object an operation takes effect in one step, between its
call and its return. A system is linearizable when its histories of calls and returns
are among the histories of the atomic object.
-/

namespace Foundations.Linearizable

variable {S P C R : Type*}

/-- A call of an operation, or the return from it. -/
inductive Event (P C R : Type*) where
  | invoke (p : P) (call : C)
  | respond (p : P) (call : C) (result : R)

/-- An operation in progress, with its result once it has taken effect. -/
structure Operation (C R : Type*) where
  call : C
  result : Option R

/-- The value of the object, and the operations of the threads, the innermost first. -/
structure Atomic (S P C R : Type*) where
  value : S
  operations : P → List (Operation C R)

namespace Atomic

def start (value : S) : Atomic S P C R := ⟨value, fun _ => []⟩

def calls (t : Atomic S P C R) (p : P) : Option C := (t.operations p).head?.map Operation.call

variable [DecidableEq P]

def setOperations (t : Atomic S P C R) (p : P) (ops : List (Operation C R)) : Atomic S P C R :=
  { t with operations := Function.update t.operations p ops }

def perform (t : Atomic S P C R) (value : S) (p : P) (call : C) (result : R)
    (ops : List (Operation C R)) : Atomic S P C R where
  value := value
  operations := Function.update t.operations p (⟨call, some result⟩ :: ops)

end Atomic

variable [DecidableEq P]

/-- The runs of the atomic object with their histories. What an operation may do depends on the
value, and on the calls that the threads are in. -/
inductive Runs (apply : (P → Option C) → P → S → C → R → S → Prop) :
    Atomic S P C R → List (Event P C R) → Atomic S P C R → Prop
  | refl (t : Atomic S P C R) : Runs apply t [] t
  | invoke {t t' : Atomic S P C R} {p : P} {call : C} {es : List (Event P C R)}
      (hready : ∀ op ∈ (t.operations p).head?, op.result.isSome)
      (h : Runs apply (t.setOperations p (⟨call, none⟩ :: t.operations p)) es t') :
      Runs apply t (.invoke p call :: es) t'
  | perform {t t' : Atomic S P C R} {p : P} {call : C} {result : R} {value : S}
      {ops : List (Operation C R)} {es : List (Event P C R)}
      (hp : t.operations p = ⟨call, none⟩ :: ops)
      (happly : apply t.calls p t.value call result value)
      (h : Runs apply (t.perform value p call result ops) es t') : Runs apply t es t'
  | respond {t t' : Atomic S P C R} {p : P} {call : C} {result : R} {ops : List (Operation C R)}
      {es : List (Event P C R)} (hp : t.operations p = ⟨call, some result⟩ :: ops)
      (h : Runs apply (t.setOperations p ops) es t') :
      Runs apply t (.respond p call result :: es) t'

variable {apply : (P → Option C) → P → S → C → R → S → Prop} {t t' u : Atomic S P C R}
  {es es' : List (Event P C R)}

theorem Runs.trans (h : Runs apply t es t') (h' : Runs apply t' es' u) :
    Runs apply t (es ++ es') u := by
  induction h with
  | refl => exact h'
  | invoke hready _ ih => exact .invoke hready (ih h')
  | perform hp happly _ ih => exact .perform hp happly (ih h')
  | respond hp _ ih => exact .respond hp (ih h')

variable {σ α E : Type*} {step : σ → α → Option σ}

/-- The events of a run, as far as its actions are enabled. -/
def history (step : σ → α → Option σ) (event : σ → α → σ → List E) : σ → List α → List E
  | _, [] => []
  | s, a :: as => (step s a).elim [] fun s' => event s a s' ++ history step event s' as

end Foundations.Linearizable

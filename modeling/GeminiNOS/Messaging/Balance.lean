import GeminiNOS.Messaging.Path
import GeminiNOS.Messaging.References

/-! # Every function gives back what it takes

The functions of the message path follow the rules of the operations: they release
and retain only what they hold, they use rings only while they have locked them,
and they return with the references that they were called with.
-/

namespace GeminiNOS

open Foundations Prog

variable {A B T C Q α β : Type}

namespace Holdings

/-- No ring is locked, and no buffer has to be given back. -/
structure Idle (g : Holdings B T C) : Prop where
  view : g.view = none
  inHand : g.inHand = none

/-- Work on a locked ring, since it has been locked: nothing is gained and nothing is lost. -/
structure Working (r : RingId T C) (g g' : Holdings B T C) : Prop where
  held : g'.held = g.held
  view : ∃ contents, g'.view = some ⟨r, contents, false⟩
  inHand : g'.inHand = none
  mark : g'.mark = g.mark
  sends : g'.sends = g.sends

/-- A call up to its return: nothing is gained and nothing is lost. -/
structure Keeps (g g' : Holdings B T C) : Prop where
  held : g'.held = g.held
  idle : g'.Idle
  mark : g'.mark = g.mark
  sends : g'.sends = g.sends

theorem Idle.keeps {g : Holdings B T C} (h : g.Idle) : g.Keeps g := ⟨rfl, h, rfl, rfl⟩

theorem Keeps.trans {g₁ g₂ g₃ : Holdings B T C} (h : g₁.Keeps g₂) (h' : g₂.Keeps g₃) :
    g₁.Keeps g₃ :=
  ⟨h'.held.trans h.held, h'.idle, h'.mark.trans h.mark, h'.sends.trans h.sends⟩

theorem Working.trans {r : RingId T C} {g₁ g₂ g₃ : Holdings B T C} (h : Working r g₁ g₂)
    (h' : Working r g₂ g₃) : Working r g₁ g₃ :=
  ⟨h'.held.trans h.held, h'.view, h'.inHand, h'.mark.trans h.mark, h'.sends.trans h.sends⟩

theorem Idle.locked {g : Holdings B T C} (h : g.Idle) (r : RingId T C) (contents : List B) :
    Working r g (g.setView (some ⟨r, contents, false⟩)) :=
  ⟨rfl, ⟨contents, rfl⟩, h.inHand, rfl, rfl⟩

theorem Working.unlocked {r : RingId T C} {g g' : Holdings B T C} (h : Working r g g') :
    g.Keeps (g'.setView none) :=
  ⟨h.held, ⟨rfl, h.inHand⟩, h.mark, h.sends⟩

variable [DecidableEq B]

end Holdings

namespace NodeM

open Holdings

variable [DecidableEq B] {isShm : B → Bool} {g : Holdings B T C} {r : RingId T C} {b : B} {contents rest : List B}

variable (isShm)

variable {frame : Multiset B} {held : List B}

end NodeM

end GeminiNOS

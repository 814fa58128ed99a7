import GeminiNOS.Basic
import GeminiNOS.Foundations.Run

/-! # Waking a sleeping thread

Senders put messages into the ring of a thread under its lock, and write to its
`eventfd` only if it says that it sleeps. The loop of the thread announces that it
sleeps before it looks at the ring for the last time.
-/

namespace GeminiNOS

open Foundations Run

/-- Where a sender stands in `nos_transport_local_send`. -/
inductive SendPc (M : Type*) where
  | idle
  | enqueue (msg : M)
  | test
  | notify

/-- An event that `epoll_wait` reports: the `eventfd` is readable, or another descriptor is. -/
inductive LoopEvent where
  | notify
  | other
  deriving DecidableEq, Repr

/-- Where the thread stands in `nos_scheduler_run_loop`. A drain of the ring belongs to the fast
path, or to an event of a wait with the events behind it. -/
inductive LoopPc where
  | top
  | spin (cycles : ℕ)
  | ready (spun : Bool)
  | drain (rest : Option (List LoopEvent))
  | timersFast
  | pollFast
  | handleFast (events : List LoopEvent)
  | goToSleep
  | recheck
  | backOut
  | setTimeout
  | wait
  | wake (events : List LoopEvent)
  | timers (events : List LoopEvent)
  | handle (events : List LoopEvent)
  | done
  deriving DecidableEq, Repr

/-- The loop has announced its sleep and not taken it back. -/
def LoopPc.Announced : LoopPc → Prop
  | .recheck | .setTimeout | .wait => True
  | _ => False

/-- The loop has found the ring empty and goes to sleep. -/
def LoopPc.Committed : LoopPc → Prop
  | .setTimeout | .wait => True
  | _ => False

/-- A thread with the senders that send to it. -/
structure WakeupThread (P M : Type*) where
  isSleeping : Bool
  stopRequested : Bool
  notifyCount : ℕ
  msgQueue : ℕ → Option M
  head : ℕ
  tail : ℕ
  loop : LoopPc
  sender : P → SendPc M

/-- The start of a send, the next step of a sender, a stop, a write to the `eventfd` by
`nos_scheduler_stop` or `nos_timer_start`, and the next step of the loop, with the events that
`epoll_wait` reports if it is called and whether its timeout has passed. -/
inductive WakeupAction (P M : Type*) where
  | send (p : P) (msg : M)
  | sender (p : P)
  | requestStop
  | kick
  | loop (events : List LoopEvent) (elapsed : Bool)

namespace WakeupThread

variable {P M : Type*} [DecidableEq P]

/-- The thread that `nos_scheduler_init_thread` makes, at the start of its loop. -/
def init : WakeupThread P M where
  isSleeping := false
  stopRequested := false
  notifyCount := 0
  msgQueue _ := none
  head := 0
  tail := 0
  loop := .top
  sender _ := .idle

/-- A write of one to the non-blocking `eventfd`, which fails at the largest count. -/
def writeNotify (s : WakeupThread P M) : WakeupThread P M :=
  { s with
    notifyCount := if s.notifyCount + 1 < 2 ^ 64 - 1 then s.notifyCount + 1 else s.notifyCount }

def setSender (s : WakeupThread P M) (p : P) (pc : SendPc M) : WakeupThread P M :=
  { s with sender := Function.update s.sender p pc }

/-- The next step of `nos_transport_local_send`: the locked section, the test, the write. -/
def stepSender (s : WakeupThread P M) (p : P) : Option (WakeupThread P M) :=
  match s.sender p with
  | .idle => none
  | .enqueue msg =>
    let nextTail := (s.tail + 1) % maxQueueSize
    if nextTail = s.head then some (s.setSender p .idle)
    else some ({ s with
      msgQueue := Function.update s.msgQueue s.tail (some msg)
      tail := nextTail }.setSender p .test)
  | .test => some (s.setSender p (if s.isSleeping then .notify else .idle))
  | .notify => some (s.writeNotify.setSender p .idle)

/-- The next step of `nos_scheduler_run_loop`. Callbacks of components, timers and descriptors run
between the steps; what they send is the business of a sender. -/
def stepLoop (pollCycles : ℕ) (s : WakeupThread P M) (events : List LoopEvent) (elapsed : Bool) :
    Option (WakeupThread P M) :=
  match s.loop with
  | .top => some { s with loop := if s.stopRequested then .done else .spin pollCycles }
  | .spin 0 => some { s with loop := .ready false }
  | .spin (cycles + 1) =>
    some { s with loop := if s.head ≠ s.tail then .ready true else .spin cycles }
  | .ready spun =>
    some { s with loop := if spun ∨ s.head ≠ s.tail then .drain none else .goToSleep }
  | .drain rest =>
    if s.head ≠ s.tail then some { s with head := (s.head + 1) % maxQueueSize }
    else some { s with
      loop := match rest with
        | none => .timersFast
        | some events => .handle events }
  | .timersFast => some { s with loop := .pollFast }
  | .pollFast =>
    if .notify ∈ events ∧ s.notifyCount = 0 then none
    else some { s with loop := .handleFast events }
  | .handleFast [] => some { s with loop := .top }
  | .handleFast (.notify :: rest) => some { s with notifyCount := 0, loop := .handleFast rest }
  | .handleFast (.other :: rest) => some { s with loop := .handleFast rest }
  | .goToSleep => some { s with isSleeping := true, loop := .recheck }
  | .recheck =>
    some { s with loop := if s.head ≠ s.tail ∨ s.stopRequested then .backOut else .setTimeout }
  | .backOut => some { s with isSleeping := false, loop := .top }
  | .setTimeout => some { s with loop := .wait }
  | .wait =>
    if .notify ∈ events ∧ s.notifyCount = 0 ∨ events = [] ∧ elapsed = false then none
    else some { s with loop := .wake events }
  | .wake events => some { s with isSleeping := false, loop := .timers events }
  | .timers events => some { s with loop := .handle events }
  | .handle [] => some { s with loop := .top }
  | .handle (.notify :: rest) =>
    if 0 < s.notifyCount then some { s with notifyCount := 0, loop := .drain (some rest) }
    else some { s with loop := .handle rest }
  | .handle (.other :: rest) => some { s with loop := .handle rest }
  | .done => none

/-- One step of a sender, of another thread that wakes this one, or of the loop. -/
def step (pollCycles : ℕ) (s : WakeupThread P M) : WakeupAction P M → Option (WakeupThread P M)
  | .send p msg =>
    match s.sender p with
    | .idle => some (s.setSender p (.enqueue msg))
    | _ => none
  | .sender p => s.stepSender p
  | .requestStop => some { s with stopRequested := true }
  | .kick => some s.writeNotify
  | .loop events elapsed => s.stepLoop pollCycles events elapsed

/-- Some sender has enqueued and not finished its test and write. -/
def Notifying (s : WakeupThread P M) : Prop := ∃ p, s.sender p = .test ∨ s.sender p = .notify

/-- The thread does not sleep on a message that nobody is going to wake it for. -/
def NotLost (s : WakeupThread P M) : Prop :=
  s.loop = .wait → s.notifyCount = 0 → s.head ≠ s.tail → s.Notifying

/-- While the announcement stands, the flag says so; and once the loop is to sleep, a message in
the ring has left a count behind, or its sender is still to test the flag or to write. -/
structure Inv (s : WakeupThread P M) : Prop where
  announced : s.loop.Announced → s.isSleeping = true
  woken : s.loop.Committed → s.head ≠ s.tail → 0 < s.notifyCount ∨ s.Notifying

variable {s s' : WakeupThread P M} {p : P} {pc : SendPc M} {pollCycles : ℕ}
  {events : List LoopEvent} {elapsed : Bool}

theorem announced_of_committed {loop : LoopPc} (h : loop.Committed) : loop.Announced := by
  cases loop <;> first | exact trivial | exact h

omit [DecidableEq P] in
theorem Inv.notLost (h : s.Inv) : s.NotLost := by
  intro hwait hcount hmsg
  rcases h.woken (by rw [hwait]; trivial) hmsg with hpos | hnotifying
  · omega
  · exact hnotifying

omit [DecidableEq P] in
theorem inv_of_not_announced (h : ¬ s.loop.Announced) : s.Inv :=
  ⟨fun ha => absurd ha h, fun hc => absurd (announced_of_committed hc) h⟩

omit [DecidableEq P] in
theorem writeNotify_pos (s : WakeupThread P M) : 0 < s.writeNotify.notifyCount := by
  show 0 < if s.notifyCount + 1 < 2 ^ 64 - 1 then s.notifyCount + 1 else s.notifyCount
  split <;> omega

theorem Notifying.setSender (h : s.Notifying) (htest : s.sender p ≠ .test)
    (hnotify : s.sender p ≠ .notify) : (s.setSender p pc).Notifying := by
  obtain ⟨q, hq⟩ := h
  have hqp : q ≠ p := by
    rintro rfl
    exact hq.elim htest hnotify
  refine ⟨q, ?_⟩
  show Function.update s.sender p pc q = _ ∨ Function.update s.sender p pc q = _
  rwa [Function.update_of_ne hqp]

theorem notifying_setSender (h : pc = .test ∨ pc = .notify) : (s.setSender p pc).Notifying := by
  refine ⟨p, ?_⟩
  show Function.update s.sender p pc p = _ ∨ Function.update s.sender p pc p = _
  rwa [Function.update_self]

theorem Inv.stepSender (h : s.Inv) (hs : s.stepSender p = some s') : s'.Inv := by
  unfold WakeupThread.stepSender at hs
  split at hs <;> rename_i hpc
  · cases hs
  · simp only at hs
    split at hs <;> obtain rfl := Option.some.inj hs
    · refine ⟨h.announced, fun hc hmsg => (h.woken hc hmsg).imp id fun hn => ?_⟩
      exact hn.setSender (by simp [hpc]) (by simp [hpc])
    · exact ⟨h.announced, fun _ _ => Or.inr (notifying_setSender (Or.inl rfl))⟩
  · obtain rfl := Option.some.inj hs
    refine ⟨h.announced, fun hc _ => Or.inr (notifying_setSender (Or.inr ?_))⟩
    exact if_pos (h.announced (announced_of_committed hc))
  · obtain rfl := Option.some.inj hs
    exact ⟨h.announced, fun _ _ => Or.inl s.writeNotify_pos⟩

omit [DecidableEq P] in
theorem not_announced_of_stepLoop (hs : s.stepLoop pollCycles events elapsed = some s')
    (hsleep : s.loop ≠ .goToSleep) (hrecheck : s.loop ≠ .recheck)
    (htimeout : s.loop ≠ .setTimeout) : ¬ s'.loop.Announced := by
  unfold WakeupThread.stepLoop at hs
  split at hs <;> grind [LoopPc.Announced]

omit [DecidableEq P] in
/-- The loop announces its sleep before it looks at the ring, and sleeps only on an empty one. -/
theorem Inv.stepLoop (h : s.Inv) (hs : s.stepLoop pollCycles events elapsed = some s') :
    s'.Inv := by
  by_cases hsleep : s.loop = .goToSleep
  · simp only [WakeupThread.stepLoop, hsleep] at hs
    obtain rfl := Option.some.inj hs
    exact ⟨fun _ => rfl, False.elim⟩
  by_cases hrecheck : s.loop = .recheck
  · have hflag := h.announced (by rw [hrecheck]; trivial)
    simp only [WakeupThread.stepLoop, hrecheck] at hs
    obtain rfl := Option.some.inj hs
    by_cases hmsg : s.head ≠ s.tail ∨ s.stopRequested = true
    · exact inv_of_not_announced (by simp [hmsg, LoopPc.Announced])
    · exact ⟨fun _ => hflag, fun _ hne => absurd (Or.inl hne) hmsg⟩
  by_cases htimeout : s.loop = .setTimeout
  · have hflag := h.announced (by rw [htimeout]; trivial)
    have hwoken := h.woken (by rw [htimeout]; trivial)
    simp only [WakeupThread.stepLoop, htimeout] at hs
    obtain rfl := Option.some.inj hs
    exact ⟨fun _ => hflag, fun _ => hwoken⟩
  exact inv_of_not_announced (not_announced_of_stepLoop hs hsleep hrecheck htimeout)

theorem Inv.step (h : s.Inv) {action : WakeupAction P M}
    (hs : s.step pollCycles action = some s') : s'.Inv := by
  cases action with
  | send p msg =>
    simp only [WakeupThread.step] at hs
    split at hs
    · rename_i hidle
      obtain rfl := Option.some.inj hs
      refine ⟨h.announced, fun hc hmsg => (h.woken hc hmsg).imp id fun hn => ?_⟩
      exact hn.setSender (by simp [hidle]) (by simp [hidle])
    · cases hs
  | sender p => exact h.stepSender hs
  | requestStop =>
    obtain rfl := Option.some.inj hs
    exact ⟨h.announced, h.woken⟩
  | kick =>
    obtain rfl := Option.some.inj hs
    exact ⟨h.announced, fun _ _ => Or.inl s.writeNotify_pos⟩
  | loop events elapsed => exact h.stepLoop hs

/-- No wakeup is lost: for any number of spins before a sleep, in every state of every run. -/
theorem always_notLost (pollCycles : ℕ) (actions : List (WakeupAction P M)) :
    Always (step pollCycles) NotLost init actions :=
  always_of_invariant (I := Inv) (fun _ _ _ h hs => h.step hs) (fun _ h => h.notLost)
    (inv_of_not_announced id)

end WakeupThread

end GeminiNOS

import GeminiNOS.Foundations.Pending
import GeminiNOS.Scheduler.TimerCallbacks

/-! # Stopped timers

What is called on the timers, and the callbacks that are invoked, are collected beside
the run. A stop takes the timer out of the heap of its owner, and nothing but a start
or the re-arm of `process_timers` puts it back. The re-arm does not ask whether the
timer has been stopped while its callback ran.
-/

namespace GeminiNOS

open Foundations

/-- What happens to a timer. -/
inductive TimerEvent where
  | start (timer : TimerId)
  | stop (timer : TimerId)
  | invoke (timer : TimerId)
  deriving DecidableEq, Repr

/-- A run, and what has happened in it to the timers. -/
structure TimerHistory where
  run : TimerRun
  events : List TimerEvent

/-- What an action does to a timer: it calls `nos_timer_start` or `nos_timer_stop` on it, or it
invokes its callback. -/
def TimerRun.event (s : TimerRun) : TimerAction → Option TimerEvent
  | .call (.start _ timer _ _ _) => some (.start timer)
  | .call (.stop _ timer) => some (.stop timer)
  | .round =>
    match s.mode with
    | .loop thread now =>
      if s.system.Due thread now then
        (s.system.timers (s.system.root thread)).bind fun t =>
          t.callback.map fun _ => .invoke (s.system.root thread)
      else none
    | _ => none
  | _ => none

namespace TimerHistory

def init : TimerHistory := ⟨TimerRun.init, []⟩

def step (s : TimerHistory) (a : TimerAction) : Option TimerHistory :=
  (s.run.step a).map fun run => ⟨run, s.events ++ (s.run.event a).toList⟩

def Stopped (s : TimerHistory) (timer : TimerId) : Prop :=
  Pending s.events (.stop timer) (.start timer)

/-- The callback of a timer is not invoked after a stop until the timer is started. -/
def StopMeansStop (s : TimerHistory) : Prop :=
  ∀ timer, NoneUntil s.events (.stop timer) (.invoke timer) (.start timer)

/-- The timer stands in no heap but that of its owner, there once, and is marked running then. -/
def OnlyNode (system : TimerSystem) (timer : TimerId) : Prop :=
  ∀ thread k, k < (system.heaps thread).size → (system.heaps thread).nodes k = timer →
    system.RunningOn thread timer ∧
      ∀ k' < (system.heaps thread).size, (system.heaps thread).nodes k' = timer → k' = k

/-- A stop finds the only node of its timer. When the callback of a timer returns that is then
periodic, the timer has not been stopped without being started again. -/
def StopFits (s : TimerHistory) : TimerAction → Prop
  | .call (.stop _ timer) => OnlyNode s.run.system timer
  | .ret _ _ => ∀ thread timer callback t, s.run.mode = .firing thread timer callback →
      s.run.system.timers timer = some t → t.isPeriodic = true → ¬ s.Stopped timer
  | _ => True

/-- No callback is invoked after a stop, and no stopped timer stands in a heap. -/
structure Quiet (s : TimerHistory) : Prop where
  order : s.StopMeansStop
  stopped : ∀ thread timer, s.Stopped timer → ¬ s.run.system.InHeap thread timer

variable {s s' : TimerHistory} {run : TimerRun} {system : TimerSystem} {a : TimerAction}
  {c : TimerCall} {thread : ThreadId} {timer : TimerId}

/-- The heaps hold exactly the running timers, so a stop finds the only node of its timer. -/
theorem onlyNode_of_members (h : system.Members) (timer : TimerId) : OnlyNode system timer := by
  intro thread k hk hn
  refine ⟨(h.mem_iff thread timer).mp ⟨k, hk, hn⟩, fun k' hk' hn' => ?_⟩
  exact h.inj thread hk' hk (hn'.trans hn.symm)

theorem OnlyNode.not_inHeap_stop (h : OnlyNode system timer) {thread : Option ThreadId}
    {r : NosStatus × TimerSystem} (hr : system.nosTimerStop thread timer = some r)
    (thread' : ThreadId) : ¬ r.2.InHeap thread' timer := by
  rcases TimerSystem.nosTimerStop_cases hr with ⟨rfl, hnot⟩ | ⟨owner, t, i, ht, ho, hi, rfl⟩
  · rintro ⟨k, hk, hn⟩
    exact hnot thread' (h thread' k hk hn).1 ⟨k, hk, hn⟩
  · obtain ⟨hlt, hn⟩ := NosTimerHeap.findNode_some hi
    intro hin
    obtain ⟨k, hk, hn'⟩ := TimerSystem.inHeap_of_disarm hlt hin
    obtain ⟨t', ht', -, hown⟩ := (h thread' k hk hn').1
    rw [ht] at ht'
    obtain rfl := Option.some.inj ht'
    rw [hown, Option.some_or] at ho
    obtain rfl := Option.some.inj ho
    exact TimerSystem.not_inHeap_disarm hlt (h thread' i hlt hn).2 hin

theorem inHeap_of_stop {thread : Option ThreadId} {timer' : TimerId}
    {r : NosStatus × TimerSystem} (hr : system.nosTimerStop thread timer = some r)
    {thread' : ThreadId} (hin : r.2.InHeap thread' timer') : system.InHeap thread' timer' := by
  rcases TimerSystem.nosTimerStop_cases hr with ⟨rfl, -⟩ | ⟨owner, t, i, -, -, hi, rfl⟩
  · exact hin
  · exact TimerSystem.inHeap_of_disarm (NosTimerHeap.findNode_some hi).1 hin

theorem inHeap_of_delete {timer' : TimerId} {system' : TimerSystem}
    (hs : system.nosTimerDelete timer = some system') (hin : system'.InHeap thread timer') :
    system.InHeap thread timer' := by
  rcases TimerSystem.nosTimerDelete_cases hs with hheaps | ⟨owner, i, hi, rfl⟩
  · simpa only [TimerSystem.InHeap, hheaps] using hin
  · exact TimerSystem.inHeap_of_disarm (NosTimerHeap.findNode_some hi).1 hin

theorem Quiet.silent (h : s.Quiet) (hin : ∀ thread timer, run.system.InHeap thread timer →
    s.run.system.InHeap thread timer ∨ ¬ s.Stopped timer) : Quiet ⟨run, s.events ++ []⟩ := by
  rw [List.append_nil]
  refine ⟨h.order, fun thread timer hstop hmem => ?_⟩
  rcases hin thread timer hmem with hmem | hnot
  · exact h.stopped thread timer hstop hmem
  · exact hnot hstop

theorem Quiet.start (h : s.Quiet) (hin : ∀ thread timer', run.system.InHeap thread timer' →
    timer' = timer ∨ s.run.system.InHeap thread timer') :
    Quiet ⟨run, s.events ++ [.start timer]⟩ := by
  constructor
  · intro timer'
    refine noneUntil_concat.mpr ⟨h.order timer', ?_⟩
    rintro ⟨⟩
  · intro thread timer' hstop hmem
    rcases pending_concat.mp hstop with he | ⟨hne, hstop⟩
    · cases he
    · rcases hin thread timer' hmem with rfl | hmem
      · exact hne rfl
      · exact h.stopped thread timer' hstop hmem

theorem Quiet.stop (h : s.Quiet) (hnot : ∀ thread, ¬ run.system.InHeap thread timer)
    (hin : ∀ thread timer', run.system.InHeap thread timer' →
      s.run.system.InHeap thread timer') : Quiet ⟨run, s.events ++ [.stop timer]⟩ := by
  constructor
  · intro timer'
    refine noneUntil_concat.mpr ⟨h.order timer', ?_⟩
    rintro ⟨⟩
  · intro thread timer' hstop hmem
    rcases pending_concat.mp hstop with he | ⟨-, hstop⟩
    · cases he
      exact hnot thread hmem
    · exact h.stopped thread timer' hstop (hin thread timer' hmem)

theorem Quiet.invoke (h : s.Quiet) (hroot : s.run.system.InHeap thread timer)
    (hin : ∀ thread timer', run.system.InHeap thread timer' →
      s.run.system.InHeap thread timer') : Quiet ⟨run, s.events ++ [.invoke timer]⟩ := by
  constructor
  · intro timer'
    refine noneUntil_concat.mpr ⟨h.order timer', ?_⟩
    rintro ⟨⟩ hstop
    exact h.stopped thread timer hstop hroot
  · intro thread' timer' hstop hmem
    rcases pending_concat.mp hstop with he | ⟨-, hstop⟩
    · cases he
    · exact h.stopped thread' timer' hstop (hin thread' timer' hmem)

theorem Quiet.call (h : s.Quiet) (hfits : s.StopFits (.call c))
    (hs : s.run.step (.call c) = some run) :
    Quiet ⟨run, s.events ++ (s.run.event (.call c)).toList⟩ := by
  simp only [TimerRun.step] at hs
  split at hs
  · rename_i hready
    obtain ⟨system, hstep, rfl⟩ := Option.map_eq_some_iff.mp hs
    cases c with
    | create timer callback arg freeArg =>
      simp only [timerStep, Option.ite_none_right_eq_some, Option.some.injEq] at hstep
      obtain ⟨-, rfl⟩ := hstep
      exact h.silent fun _ _ hin => .inl hin
    | start thread timer now intervalMs isPeriodic =>
      obtain ⟨r, hr, rfl⟩ := Option.map_eq_some_iff.mp hstep
      refine h.start fun thread' timer' hin => ?_
      rcases TimerSystem.nosTimerStart_some hr with rfl | ⟨thread, t, -, -, -, -, -, rfl⟩
      · exact .inr hin
      · rcases TimerSystem.inHeap_arm.mp hin with ⟨-, he⟩ | hin
        · exact .inl he
        · exact .inr hin
    | stop thread timer =>
      obtain ⟨r, hr, rfl⟩ := Option.map_eq_some_iff.mp hstep
      exact h.stop (hfits.not_inHeap_stop hr) fun thread' timer' => inHeap_of_stop hr
    | delete timer => exact h.silent fun _ _ hin => .inl (inHeap_of_delete hstep hin)
    | process thread clock => exact absurd hready id
  · cases hs

theorem Quiet.round (h : s.Quiet) (hs : s.run.step .round = some run) :
    Quiet ⟨run, s.events ++ (s.run.event .round).toList⟩ := by
  simp only [TimerRun.step] at hs
  split at hs
  · rename_i thread now hmode
    split at hs
    · rename_i hdue
      obtain ⟨t, ht, rfl⟩ := Option.map_eq_some_iff.mp hs
      have hin : ∀ thread' timer', (s.run.system.popRoot thread t).InHeap thread' timer' →
          s.run.system.InHeap thread' timer' := fun _ _ => TimerSystem.inHeap_of_disarm hdue.1
      cases hcallback : t.callback with
      | none =>
        have he : s.run.event .round = none := by
          simp [TimerRun.event, hmode, hdue, ht, hcallback]
        rw [he]
        exact h.silent fun thread' timer' hmem => .inl (hin thread' timer' hmem)
      | some callback =>
        have he : s.run.event .round = some (.invoke (s.run.system.root thread)) := by
          simp [TimerRun.event, hmode, hdue, ht, hcallback]
        rw [he]
        exact h.invoke ⟨0, hdue.1, rfl⟩ hin
    · rename_i hdue
      obtain rfl := Option.some.inj hs
      have he : s.run.event .round = none := by simp [TimerRun.event, hmode, hdue]
      rw [he]
      exact h.silent fun _ _ hin => .inl hin
  · cases hs

theorem Quiet.ret (h : s.Quiet) {later now : ℕ} (hfits : s.StopFits (.ret later now))
    (hs : s.run.step (.ret later now) = some run) :
    Quiet ⟨run, s.events ++ (s.run.event (.ret later now)).toList⟩ := by
  simp only [TimerRun.step] at hs
  split at hs
  · rename_i thread timer callback hmode
    obtain ⟨t, ht, rfl⟩ := Option.map_eq_some_iff.mp hs
    refine h.silent fun thread' timer' hin => ?_
    dsimp only at hin
    split_ifs at hin with hperiodic
    · rcases TimerSystem.inHeap_arm.mp hin with ⟨-, rfl⟩ | hin
      · exact .inr (hfits thread timer' callback t hmode ht hperiodic)
      · exact .inl hin
    · exact .inl hin
  · cases hs

theorem Quiet.step (h : s.Quiet) (hfits : s.StopFits a) (hs : s.step a = some s') : s'.Quiet := by
  obtain ⟨run, hrun, rfl⟩ := Option.map_eq_some_iff.mp hs
  cases a with
  | call c => exact h.call hfits hrun
  | process thread now =>
    simp only [TimerRun.step] at hrun
    split at hrun
    · obtain rfl := Option.some.inj hrun
      exact h.silent fun _ _ hin => .inl hin
    · cases hrun
  | round => exact h.round hrun
  | ret later now => exact h.ret hfits hrun

theorem quiet_init : init.Quiet :=
  ⟨fun _ => noneUntil_nil, fun _ _ hstop => absurd hstop not_pending_nil⟩

/-- As long as stops find the only node of their timer, and no periodic timer is stopped by its
own callback without being started again, a stopped timer does not fire until it is started. -/
theorem always_stopMeansStop {actions : List TimerAction}
    (h : Run.Guarded step StopFits init actions) :
    Run.Always step StopMeansStop init actions :=
  Run.always_of_guarded (fun _ _ _ hi hfits hs => hi.step hfits hs) (fun _ hi => hi.order)
    quiet_init h

/-- Two timers in the heap of a thread, the first one periodic. -/
def startTwo : List TimerCall :=
  [.create 1 (some 7) 0 none, .create 2 (some 8) 0 none, .start (some 0) 1 0 5 true,
    .start (some 0) 2 0 20 false]

/-- The callback of the periodic timer stops the other one, and the clock passes its expiry. -/
theorem always_stopMeansStop_stop_other :
    Run.Always step StopMeansStop init
      (startTwo.map TimerAction.call ++
        [.process 0 5, .round, .call (.stop (some 0) 2), .ret 5 30, .round]) := by
  have hm : ∃ s, Run.exec timerStep TimerSystem.init startTwo = some s ∧
      0 < (s.heaps 0).size ∧ s.Members := by
    refine ⟨_, rfl, by decide, ?_⟩
    exact Run.exec_invariant (fun _ _ _ h hs => h.step hs) TimerSystem.members_init
      (show Run.exec timerStep TimerSystem.init startTwo = some _ from rfl)
  obtain ⟨s, hs, hsize, hm⟩ := hm
  obtain rfl := Option.some.inj hs
  apply always_stopMeansStop
  iterate 6 refine .cons rfl trivial ?_
  refine .cons rfl (onlyNode_of_members (hm.popRoot hsize _) 2) ?_
  refine .cons rfl ?_ (.cons rfl trivial trivial)
  rintro _ _ _ _ ⟨⟩ - - hstop
  exact absurd hstop.mem (by decide)

/-- A periodic timer is stopped by its own callback and fires again. -/
theorem not_stopMeansStop_after_own_stop :
    ¬ Run.Always step StopMeansStop init
      [.call (.create 1 (some 7) 0 none), .call (.start (some 0) 1 0 5 true), .process 0 5, .round,
        .call (.stop (some 0) 1), .ret 5 10, .round] := by
  intro h
  have horder := h.last rfl 1
  exact List.not_mem_nil (horder [.start 1, .invoke 1] [] [] rfl)

end TimerHistory

end GeminiNOS

import GeminiNOS.Scheduler.TimerCallbacks

/-! # The pace of timers

Beside a run stand the readings of the monotonic clock, with what was armed and fired at
each of them. The heap order does not matter here: what stands at the root of a heap
is asked for its own expiry before it fires, and the firing takes it out.
-/

namespace GeminiNOS

open Foundations

/-- A timer is put into a heap, or taken out of it to fire, at a reading of the clock. -/
inductive PaceEvent where
  | arm (timer : TimerId) (since intervalMs : ℕ)
  | fire (timer : TimerId) (now : ℕ)
  deriving DecidableEq, Repr

namespace PaceEvent

def timer : PaceEvent → TimerId
  | arm timer _ _ | fire timer _ => timer

def time : PaceEvent → ℕ
  | arm _ since _ => since
  | fire _ now => now

end PaceEvent

/-- The event of a step: a `nos_timer_start` that succeeds, a root that is due, and a timer that is
still periodic when its callback returns. -/
def TimerRun.pace (s : TimerRun) : TimerAction → Option PaceEvent
  | .call (.start thread timer now intervalMs isPeriodic) =>
    if (s.system.nosTimerStart thread timer now intervalMs isPeriodic).map Prod.fst = some .ok then
      some (.arm timer now intervalMs)
    else none
  | .round =>
    match s.mode with
    | .loop thread now =>
      if s.system.Due thread now then some (.fire (s.system.root thread) now) else none
    | _ => none
  | .ret later _ =>
    match s.mode with
    | .firing _ timer _ =>
      (s.system.timers timer).bind fun t =>
        if t.isPeriodic then some (.arm timer later t.intervalMs) else none
    | _ => none
  | _ => none

/-- A run, its events with the last one first, and the last reading of the clock. -/
structure TimerPace where
  run : TimerRun
  log : List PaceEvent
  clock : ℕ

namespace TimerPace

def init : TimerPace := ⟨TimerRun.init, [], 0⟩

def reading (clock : ℕ) : TimerAction → ℕ
  | .call (.start _ _ now _ _) => now
  | .process _ now => now
  | .ret _ now => now
  | _ => clock

def step (s : TimerPace) (a : TimerAction) : Option TimerPace :=
  (s.run.step a).map fun run => ⟨run, (s.run.pace a).toList ++ s.log, reading s.clock a⟩

/-- The clock does not go back, and the word of an expiry holds it. -/
def Ticks (s : TimerPace) : TimerAction → Prop
  | .call (.start _ _ now intervalMs _) => s.clock ≤ now ∧ now + intervalMs < 2 ^ 64
  | .process _ now => s.clock ≤ now
  | .ret later now => s.clock ≤ later ∧ later ≤ now ∧ ∀ thread timer callback t,
      s.run.mode = .firing thread timer callback → s.run.system.timers timer = some t →
        later + t.intervalMs < 2 ^ 64
  | _ => True

def lastOf (log : List PaceEvent) (timer : TimerId) : Option PaceEvent :=
  log.find? (·.timer = timer)

/-- Every timer that fires was armed when something happened to it last, and its interval has
passed since. -/
def Paced (log : List PaceEvent) : Prop :=
  ∀ after timer now before, log = after ++ .fire timer now :: before →
    ∃ since intervalMs, lastOf before timer = some (.arm timer since intervalMs) ∧
      since + intervalMs ≤ now

/-- Between two firings of a timer it is armed again, not before the first one, and an interval
passes until the second one. -/
def Spaced (log : List PaceEvent) : Prop :=
  ∀ after timer now' between now before,
    log = after ++ .fire timer now' :: (between ++ .fire timer now :: before) →
      ∃ since intervalMs, .arm timer since intervalMs ∈ between ∧ now ≤ since ∧
        since + intervalMs ≤ now'

/-- The events stand in the order of the clock, and a running timer expires one interval after it
was armed. -/
structure OnTime (s : TimerPace) : Prop where
  sound : s.run.Sound
  armed : ∀ timer t, s.run.system.timers timer = some t → t.isRunning = true →
    ∃ since intervalMs, lastOf s.log timer = some (.arm timer since intervalMs) ∧
      t.expireAtMs = since + intervalMs
  looping : ∀ thread now, s.run.mode = .loop thread now → now = s.clock
  sorted : s.log.Pairwise fun later earlier => earlier.time ≤ later.time
  past : ∀ e ∈ s.log, e.time ≤ s.clock
  paced : Paced s.log

variable {s s' : TimerPace} {run : TimerRun} {log : List PaceEvent} {a : TimerAction}
  {c : TimerCall} {timer : TimerId} {t : NosTimer} {clock now since intervalMs : ℕ}

theorem lastOf_cons_self {e : PaceEvent} (he : e.timer = timer) :
    lastOf (e :: log) timer = some e :=
  List.find?_cons_of_pos (decide_eq_true he)

theorem lastOf_cons_of_ne {e : PaceEvent} (he : e.timer ≠ timer) :
    lastOf (e :: log) timer = lastOf log timer :=
  List.find?_cons_of_neg fun hd => he (of_decide_eq_true hd)

theorem paced_nil : Paced [] := by
  intro after timer now before h
  exact absurd h.symm (List.append_ne_nil_of_right_ne_nil after (List.cons_ne_nil _ before))

theorem Paced.arm (h : Paced log) : Paced (.arm timer since intervalMs :: log) := by
  intro after timer' now before he
  cases after with
  | nil => cases he
  | cons e after => exact h after timer' now before (List.cons.inj he).2

theorem Paced.fire (h : Paced log)
    (harm : lastOf log timer = some (.arm timer since intervalMs))
    (hnow : since + intervalMs ≤ now) : Paced (.fire timer now :: log) := by
  intro after timer' now' before he
  cases after with
  | nil =>
    cases he
    exact ⟨since, intervalMs, harm, hnow⟩
  | cons e after => exact h after timer' now' before (List.cons.inj he).2

/-- The arming that a firing answers stands between it and any earlier firing. -/
theorem Paced.spaced (h : Paced log)
    (hsorted : log.Pairwise fun later earlier => earlier.time ≤ later.time) : Spaced log := by
  rintro after timer now' between now before rfl
  obtain ⟨since, intervalMs, harm, hnow⟩ := h after timer now' _ rfl
  have hmem : .arm timer since intervalMs ∈ between := by
    rw [lastOf, List.find?_append] at harm
    cases hbetween : between.find? (·.timer = timer) with
    | none =>
      rw [hbetween, Option.none_or] at harm
      cases (lastOf_cons_self rfl).symm.trans harm
    | some e =>
      rw [hbetween, Option.some_or] at harm
      obtain rfl := Option.some.inj harm
      exact List.mem_of_find?_eq_some hbetween
  refine ⟨since, intervalMs, hmem, ?_, hnow⟩
  have hlater := (List.pairwise_cons.mp (List.pairwise_append.mp hsorted).2.1).2
  exact (List.pairwise_append.mp hlater).2.2 _ hmem _ List.mem_cons_self

theorem OnTime.silent (h : s.OnTime) (hsound : run.Sound)
    (hkept : ∀ timer t, run.system.timers timer = some t → t.isRunning = true →
      s.run.system.timers timer = some t)
    (hlooping : ∀ thread now, run.mode = .loop thread now → now = clock)
    (hclock : s.clock ≤ clock) : OnTime ⟨run, s.log, clock⟩ where
  sound := hsound
  armed timer t ht hrunning := h.armed timer t (hkept timer t ht hrunning) hrunning
  looping := hlooping
  sorted := h.sorted
  past e he := (h.past e he).trans hclock
  paced := h.paced

theorem OnTime.arm (h : s.OnTime) (hsound : run.Sound)
    (htimers : run.system.timers = Function.update s.run.system.timers timer (some t))
    (hexpire : t.expireAtMs = since + intervalMs)
    (hlooping : ∀ thread now, run.mode = .loop thread now → now = clock)
    (hsince : s.clock ≤ since) (hclock : since ≤ clock) :
    OnTime ⟨run, .arm timer since intervalMs :: s.log, clock⟩ where
  sound := hsound
  armed timer' t' ht hrunning := by
    simp only [htimers] at ht
    by_cases he : timer = timer'
    · subst he
      rw [Function.update_self] at ht
      obtain rfl := Option.some.inj ht
      exact ⟨since, intervalMs, lastOf_cons_self rfl, hexpire⟩
    · rw [Function.update_of_ne (Ne.symm he)] at ht
      obtain ⟨since', intervalMs', harm, hexpire'⟩ := h.armed timer' t' ht hrunning
      exact ⟨since', intervalMs', (lastOf_cons_of_ne (e := .arm _ _ _) he).trans harm, hexpire'⟩
  looping := hlooping
  sorted := List.pairwise_cons.mpr ⟨fun e he => (h.past e he).trans hsince, h.sorted⟩
  past := by
    intro e he
    rcases List.mem_cons.mp he with rfl | he
    · exact hclock
    · exact (h.past e he).trans (hsince.trans hclock)
  paced := h.paced.arm

/-- The root of a heap is due: it was armed at least its interval ago. -/
theorem OnTime.round (h : s.OnTime) (hs : s.run.step .round = some run) :
    OnTime ⟨run, (s.run.pace .round).toList ++ s.log, s.clock⟩ := by
  have hsound := h.sound.round hs
  simp only [TimerRun.step] at hs
  split at hs
  · rename_i thread now hmode
    split at hs
    · rename_i hdue
      obtain ⟨t, ht, rfl⟩ := Option.map_eq_some_iff.mp hs
      have hpace : s.run.pace .round = some (.fire (s.run.system.root thread) now) := by
        simp [TimerRun.pace, hmode, hdue]
      rw [hpace]
      obtain ⟨t', ht', hrunning, -⟩ :=
        (h.sound.members.mem_iff thread (s.run.system.root thread)).mp ⟨0, hdue.1, rfl⟩
      rw [ht] at ht'
      obtain rfl := Option.some.inj ht'
      obtain ⟨since, intervalMs, harm, hexpire⟩ := h.armed _ t ht hrunning
      have hclock := h.looping thread now hmode
      have hnow : since + intervalMs ≤ now := by
        have hle := hdue.2
        simp only [expireAt, ht] at hle
        omega
      constructor
      · exact hsound
      · intro timer' t' ht' hrunning'
        have hne : s.run.system.root thread ≠ timer' := by
          rintro rfl
          rw [TimerSystem.popRoot_root] at ht'
          obtain rfl := Option.some.inj ht'
          cases hrunning'
        simp only [TimerSystem.popRoot, TimerSystem.disarm,
          Function.update_of_ne (Ne.symm hne)] at ht'
        obtain ⟨since', intervalMs', harm', hexpire'⟩ := h.armed timer' t' ht' hrunning'
        exact ⟨since', intervalMs', (lastOf_cons_of_ne (e := .fire _ _) hne).trans harm', hexpire'⟩
      · rintro _ _ ⟨⟩
      · refine List.pairwise_cons.mpr ⟨fun e he => ?_, h.sorted⟩
        rw [PaceEvent.time, hclock]
        exact h.past e he
      · intro e he
        rcases List.mem_cons.mp he with rfl | he
        · exact hclock.le
        · exact h.past e he
      · exact h.paced.fire harm hnow
    · rename_i hdue
      obtain rfl := Option.some.inj hs
      have hpace : s.run.pace .round = none := by simp [TimerRun.pace, hmode, hdue]
      rw [hpace]
      exact h.silent hsound (fun _ _ ht _ => ht) (by rintro _ _ ⟨⟩) le_rfl
  · cases hs

theorem OnTime.ret (h : s.OnTime) {later : ℕ} (hfits : s.run.CallbackFits (.ret later now))
    (hticks : s.Ticks (.ret later now)) (hs : s.run.step (.ret later now) = some run) :
    OnTime ⟨run, (s.run.pace (.ret later now)).toList ++ s.log, now⟩ := by
  have hsound := h.sound.ret hfits hs
  obtain ⟨hclock, hnow, hword⟩ := hticks
  simp only [TimerRun.step] at hs
  split at hs
  · rename_i thread timer callback hmode
    obtain ⟨t, ht, rfl⟩ := Option.map_eq_some_iff.mp hs
    have hexpire : u64 (later + t.intervalMs) = later + t.intervalMs :=
      Nat.mod_eq_of_lt (hword thread timer callback t hmode ht)
    cases hperiodic : t.isPeriodic with
    | true =>
      have hpace : s.run.pace (.ret later now) = some (.arm timer later t.intervalMs) := by
        simp [TimerRun.pace, hmode, ht, hperiodic]
      rw [hpace]
      simp only [hperiodic, if_true] at hsound ⊢
      refine h.arm hsound rfl hexpire ?_ hclock hnow
      rintro _ _ ⟨⟩
      rfl
    | false =>
      have hpace : s.run.pace (.ret later now) = none := by
        simp [TimerRun.pace, hmode, ht, hperiodic]
      rw [hpace]
      simp only [hperiodic, Bool.false_eq_true, if_false] at hsound ⊢
      refine h.silent hsound (fun _ _ ht _ => ht) ?_ (hclock.trans hnow)
      rintro _ _ ⟨⟩
      rfl
  · cases hs

theorem OnTime.call (h : s.OnTime) (hfits : s.run.CallbackFits (.call c))
    (hticks : s.Ticks (.call c)) (hs : s.run.step (.call c) = some run) :
    OnTime ⟨run, (s.run.pace (.call c)).toList ++ s.log, reading s.clock (.call c)⟩ := by
  have hsound := h.sound.call hfits hs
  simp only [TimerRun.step] at hs
  split at hs
  · rename_i hready
    obtain ⟨system, hstep, rfl⟩ := Option.map_eq_some_iff.mp hs
    have hidle : ∀ thread now, s.run.mode ≠ .loop thread now := by
      intro thread now hmode
      cases c <;> simp [TimerRun.Ready, hmode] at hready
    have hlooping : ∀ clock thread now, s.run.mode = .loop thread now → now = clock :=
      fun _ thread now hmode => absurd hmode (hidle thread now)
    -- a timer that is stored as it does not run is not armed
    have hstored : ∀ timer x, (∀ t, x = some t → t.isRunning = false) →
        ∀ timer' t, Function.update s.run.system.timers timer x timer' = some t →
          t.isRunning = true → s.run.system.timers timer' = some t := by
      intro timer x hx timer' t ht hrunning
      rw [Function.update_apply] at ht
      split at ht
      · rw [hx t ht] at hrunning
        cases hrunning
      · exact ht
    cases c with
    | create timer callback arg freeArg =>
      simp only [timerStep, Option.ite_none_right_eq_some, Option.some.injEq] at hstep
      obtain ⟨-, rfl⟩ := hstep
      refine h.silent hsound (hstored timer _ fun t ht => ?_) (hlooping _) le_rfl
      rw [← Option.some.inj ht]
    | start thread timer now intervalMs isPeriodic =>
      obtain ⟨r, hr, rfl⟩ := Option.map_eq_some_iff.mp hstep
      obtain ⟨hclock, hword⟩ := hticks
      rcases TimerSystem.nosTimerStart_some hr with
        rfl | ⟨thread', t, -, -, -, -, -, rfl⟩
      · have hpace : s.run.pace (.call (.start thread timer now intervalMs isPeriodic)) = none := by
          simp [TimerRun.pace, hr]
        rw [hpace]
        exact h.silent hsound (fun _ _ ht _ => ht) (hlooping _) hclock
      · have hpace : s.run.pace (.call (.start thread timer now intervalMs isPeriodic)) =
            some (.arm timer now intervalMs) := by
          simp [TimerRun.pace, hr]
        rw [hpace]
        exact h.arm hsound rfl (Nat.mod_eq_of_lt hword) (hlooping _) hclock le_rfl
    | stop thread timer =>
      obtain ⟨r, hr, rfl⟩ := Option.map_eq_some_iff.mp hstep
      rcases h.sound.members.nosTimerStop_some hr with
        ⟨rfl, -⟩ | ⟨thread', t, i, -, -, -, -, rfl⟩
      · exact h.silent hsound (fun _ _ ht _ => ht) (hlooping _) le_rfl
      · refine h.silent hsound (hstored timer _ fun t ht => ?_) (hlooping _) le_rfl
        rw [← Option.some.inj ht]
    | delete timer =>
      rcases h.sound.members.nosTimerDelete_some hstep with
        ⟨rfl, -⟩ | ⟨-, -, rfl⟩ | ⟨thread', t, i, -, -, -, -, rfl⟩
      · exact h.silent hsound (fun _ _ ht _ => ht) (hlooping _) le_rfl
      · refine h.silent hsound (hstored timer none fun t ht => ?_) (hlooping _) le_rfl
        cases ht
      · refine h.silent hsound (hstored timer none fun t ht => ?_) (hlooping _) le_rfl
        cases ht
    | process thread clock => exact absurd hready id
  · cases hs

theorem OnTime.step (h : s.OnTime) (hfits : s.run.CallbackFits a) (hticks : s.Ticks a)
    (hs : s.step a = some s') : s'.OnTime := by
  obtain ⟨run, hrun, rfl⟩ := Option.map_eq_some_iff.mp hs
  cases a with
  | call c => exact h.call hfits hticks hrun
  | process thread now =>
    have hsound := h.sound.step hfits hrun
    simp only [TimerRun.step] at hrun
    split at hrun
    · obtain rfl := Option.some.inj hrun
      refine h.silent hsound (fun _ _ ht _ => ht) ?_ hticks
      rintro _ _ ⟨⟩
      rfl
    · cases hrun
  | round => exact h.round hrun
  | ret later now => exact h.ret hfits hticks hrun

theorem onTime_init : init.OnTime where
  sound := TimerRun.sound_init
  armed := by
    intro timer t ht
    cases ht
  looping := by rintro _ _ ⟨⟩
  sorted := List.Pairwise.nil
  past := by simp [init]
  paced := paced_nil

/-- As long as the callbacks fit and the clock does not go back, no timer fires before its interval
has passed since it was armed, every arming is answered at most once, and between two firings
of one timer there are at least the interval it was armed with. -/
theorem always_spaced {actions : List TimerAction}
    (h : Run.Guarded step (fun s a => s.run.CallbackFits a ∧ s.Ticks a) init actions) :
    Run.Always step (fun s => Paced s.log ∧ Spaced s.log) init actions :=
  Run.always_of_guarded (fun _ _ _ hi hg hs => hi.step hg.1 hg.2 hs)
    (fun _ hi => ⟨hi.paced, hi.paced.spaced hi.sorted⟩) onTime_init h

/-- A periodic timer that fires twice. -/
theorem always_spaced_periodic :
    Run.Always step (fun s => Paced s.log ∧ Spaced s.log) init
      [.call (.create 1 (some 7) 0 none), .call (.start (some 0) 1 0 5 true), .process 0 6, .round,
        .ret 7 7, .round, .process 0 12, .round] := by
  apply always_spaced
  refine .cons rfl ⟨trivial, trivial⟩ (.cons rfl ⟨trivial, by decide, by decide⟩ ?_)
  refine .cons rfl ⟨trivial, Nat.zero_le 6⟩ (.cons rfl ⟨trivial, trivial⟩ ?_)
  refine .cons rfl ⟨?_, by decide, by decide, ?_⟩ ?_
  · rintro _ _ _ _ ⟨⟩ ⟨⟩ -
    exact ⟨rfl, rfl, by decide⟩
  · rintro _ _ _ _ ⟨⟩ ⟨⟩
    decide
  refine .cons rfl ⟨trivial, trivial⟩ (.cons rfl ⟨trivial, show 7 ≤ 12 by decide⟩ ?_)
  exact .cons rfl ⟨trivial, trivial⟩ trivial

end TimerPace

end GeminiNOS

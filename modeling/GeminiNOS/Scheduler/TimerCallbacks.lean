import GeminiNOS.Scheduler.Timer

/-! # Timer callbacks that call back

While a timer fires, its callback may create, start, stop and delete timers, the
firing one included. The loop of `process_timers` goes on with the firing timer
after its callback, so what the callback has done to that timer decides whether the
heaps and the running flags stay together.
-/

namespace GeminiNOS

open Foundations

/-- Where the scheduler stands: outside of `process_timers`, at the head of its loop with a clock
reading, or in the callback of a timer. -/
inductive TimerMode where
  | idle
  | loop (thread : ThreadId) (now : ℕ)
  | firing (thread : ThreadId) (timer : TimerId) (callback : Option ℕ)
  deriving DecidableEq, Repr

/-- The timers, and where the scheduler stands. -/
structure TimerRun where
  system : TimerSystem
  mode : TimerMode

/-- A call on timers, from outside or from the running callback; a call of `process_timers`; one
round of its loop up to the callback; and what follows the callback, with two clock readings. -/
inductive TimerAction where
  | call (call : TimerCall)
  | process (thread : ThreadId) (now : ℕ)
  | round
  | ret (later now : ℕ)

namespace TimerRun

def init : TimerRun := ⟨TimerSystem.init, .idle⟩

/-- A call other than that of `process_timers` can be made outside of it, and by a callback. -/
def Ready (s : TimerRun) : TimerCall → Prop
  | .process _ _ => False
  | _ =>
    match s.mode with
    | .idle => True
    | .loop _ _ => False
    | .firing _ _ callback => callback ≠ none

instance (s : TimerRun) (call : TimerCall) : Decidable (s.Ready call) := by
  unfold Ready
  cases call <;> cases s.mode <;> infer_instance

def step (s : TimerRun) : TimerAction → Option TimerRun
  | .call call =>
    if s.Ready call then (timerStep s.system call).map fun system => { s with system := system }
    else none
  | .process thread now =>
    match s.mode with
    | .idle => some { s with mode := .loop thread now }
    | _ => none
  | .round =>
    match s.mode with
    | .loop thread now =>
      if s.system.Due thread now then
        (s.system.timers (s.system.root thread)).map fun t =>
          ⟨s.system.popRoot thread t, .firing thread (s.system.root thread) t.callback⟩
      else some { s with mode := .idle }
    | _ => none
  | .ret later now =>
    match s.mode with
    | .firing thread timer _ =>
      (s.system.timers timer).map fun t =>
        ⟨if t.isPeriodic then s.system.rearm thread timer t later else s.system,
          .loop thread now⟩
    | _ => none

/-- The conditions on the callbacks. None deletes the timer that is firing. When a callback
returns, a timer that is then periodic is not running, belongs to the thread that fires it and
finds room in its heap. -/
def CallbackFits (s : TimerRun) : TimerAction → Prop
  | .call (.delete timer) => ∀ thread callback, s.mode ≠ .firing thread timer callback
  | .ret _ _ => ∀ thread timer callback t, s.mode = .firing thread timer callback →
      s.system.timers timer = some t → t.isPeriodic = true →
        t.isRunning = false ∧ t.ownerThread = some thread ∧
          (s.system.heaps thread).size < (s.system.heaps thread).capacity
  | _ => True

/-- No freed timer stands in a heap or is firing. -/
structure NoFreed (s : TimerRun) : Prop where
  heap : ∀ thread timer, s.system.InHeap thread timer → s.system.timers timer ≠ none
  firing : ∀ thread timer callback, s.mode = .firing thread timer callback →
    s.system.timers timer ≠ none

/-- The heaps hold exactly the running timers, and the firing timer exists. -/
structure Sound (s : TimerRun) : Prop where
  members : s.system.Members
  firing : ∀ thread timer callback, s.mode = .firing thread timer callback →
    timer ≠ 0 ∧ s.system.timers timer ≠ none

variable {s s' : TimerRun} {system : TimerSystem} {thread : ThreadId} {timer : TimerId}
  {c : TimerCall} {a : TimerAction}

theorem timers_ne_none_of_timerStep (hm : s.system.Members)
    (hcall : ∀ thread clock, c ≠ .process thread clock) (hne : c ≠ .delete timer)
    (h : timerStep s.system c = some system) (ht : s.system.timers timer ≠ none) :
    system.timers timer ≠ none := by
  have hstore : ∀ timer' x, (timer' = timer → x ≠ none) →
      Function.update s.system.timers timer' x timer ≠ none := by
    intro timer' x hx
    rw [Function.update_apply]
    split
    · exact hx ‹timer = timer'›.symm
    · exact ht
  cases c with
  | create timer' callback arg freeArg =>
    simp only [timerStep, Option.ite_none_right_eq_some, Option.some.injEq] at h
    obtain ⟨-, rfl⟩ := h
    exact hstore timer' _ fun _ => by simp
  | start thread timer' now intervalMs isPeriodic =>
    obtain ⟨r, hr, rfl⟩ := Option.map_eq_some_iff.mp h
    rcases TimerSystem.nosTimerStart_some hr with rfl | ⟨thread', t, -, -, -, -, -, rfl⟩
    · exact ht
    · exact hstore timer' _ fun _ => by simp
  | stop thread timer' =>
    obtain ⟨r, hr, rfl⟩ := Option.map_eq_some_iff.mp h
    rcases hm.nosTimerStop_some hr with ⟨rfl, -⟩ | ⟨thread', t, i, -, -, -, -, rfl⟩
    · exact ht
    · exact hstore timer' _ fun _ => by simp
  | delete timer' =>
    have htimer : timer' ≠ timer := fun he => hne (by rw [he])
    rcases hm.nosTimerDelete_some h with ⟨rfl, -⟩ | ⟨-, -, rfl⟩ | ⟨thread', t, i, -, -, -, -, rfl⟩
    · exact ht
    · exact hstore timer' _ fun he => absurd he htimer
    · exact hstore timer' _ fun he => absurd he htimer
  | process thread clock => exact absurd rfl (hcall thread clock)

theorem Sound.call (h : s.Sound) (hfits : s.CallbackFits (.call c))
    (hs : s.step (.call c) = some s') : s'.Sound := by
  simp only [step] at hs
  split at hs
  · rename_i hready
    obtain ⟨system, hstep, rfl⟩ := Option.map_eq_some_iff.mp hs
    refine ⟨h.members.step hstep, fun thread timer callback hmode => ?_⟩
    obtain ⟨h0, ht⟩ := h.firing thread timer callback hmode
    refine ⟨h0, timers_ne_none_of_timerStep h.members ?_ ?_ hstep ht⟩
    · rintro thread clock rfl
      exact hready
    · rintro rfl
      exact hfits thread callback hmode
  · cases hs

theorem Sound.round (h : s.Sound) (hs : s.step .round = some s') : s'.Sound := by
  simp only [step] at hs
  split at hs
  · split at hs
    · rename_i thread now hmode hdue
      obtain ⟨t, ht, rfl⟩ := Option.map_eq_some_iff.mp hs
      refine ⟨h.members.popRoot hdue.1 t, ?_⟩
      rintro _ _ _ ⟨⟩
      refine ⟨h.members.root_ne_zero hdue.1, ?_⟩
      rw [TimerSystem.popRoot_root]
      simp
    · obtain rfl := Option.some.inj hs
      exact ⟨h.members, by rintro _ _ _ ⟨⟩⟩
  · cases hs

theorem Sound.ret (h : s.Sound) {later now : ℕ} (hfits : s.CallbackFits (.ret later now))
    (hs : s.step (.ret later now) = some s') : s'.Sound := by
  simp only [step] at hs
  split at hs
  · rename_i thread timer callback hmode
    obtain ⟨t, ht, rfl⟩ := Option.map_eq_some_iff.mp hs
    refine ⟨?_, by rintro _ _ _ ⟨⟩⟩
    dsimp only
    split
    · rename_i hperiodic
      obtain ⟨hrun, hown, -⟩ := hfits thread timer callback t hmode ht hperiodic
      refine h.members.arm (h.firing thread timer callback hmode).1 (fun t' ht' => ?_) rfl hown
      rw [ht] at ht'
      rw [← Option.some.inj ht', hrun]
    · exact h.members
  · cases hs

theorem Sound.step (h : s.Sound) (hfits : s.CallbackFits a) (hs : s.step a = some s') :
    s'.Sound := by
  cases a with
  | call c => exact h.call hfits hs
  | process thread now =>
    simp only [TimerRun.step] at hs
    split at hs
    · obtain rfl := Option.some.inj hs
      exact ⟨h.members, by rintro _ _ _ ⟨⟩⟩
    · cases hs
  | round => exact h.round hs
  | ret later now => exact h.ret hfits hs

theorem Sound.noFreed (h : s.Sound) : s.NoFreed := by
  constructor
  · intro thread timer hin
    obtain ⟨t, ht, -⟩ := (h.members.mem_iff thread timer).mp hin
    simp [ht]
  · exact fun thread timer callback hmode => (h.firing thread timer callback hmode).2

theorem sound_init : init.Sound := ⟨TimerSystem.members_init, by rintro _ _ _ ⟨⟩⟩

/-- As long as the callbacks fit, the heaps hold exactly the running timers whenever
`process_timers` is not in progress. -/
theorem always_members {actions : List TimerAction}
    (h : Run.Guarded step CallbackFits init actions) :
    Run.Always step (fun s => s.mode = .idle → s.system.Members) init actions :=
  Run.always_of_guarded (fun _ _ _ hi hfits hs => hi.step hfits hs) (fun _ hi _ => hi.members)
    sound_init h

/-- As long as the callbacks fit, no freed timer stands in a heap or is firing. -/
theorem always_noFreed {actions : List TimerAction}
    (h : Run.Guarded step CallbackFits init actions) :
    Run.Always step NoFreed init actions :=
  Run.always_of_guarded (fun _ _ _ hi hfits hs => hi.step hfits hs) (fun _ hi => hi.noFreed)
    sound_init h

def periodicRestart : List TimerAction :=
  [.call (.create 1 (some 7) 0 none), .call (.start (some 0) 1 0 5 true), .process 0 5, .round,
    .call (.start (some 0) 1 5 5 true), .ret 5 6, .round]

/-- A periodic timer whose callback stops another timer and starts it again, and a one-shot timer
that starts itself again. -/
def stopAndRestart : List TimerAction :=
  [.call (.create 1 (some 7) 0 none), .call (.create 2 (some 8) 0 none),
    .call (.start (some 0) 1 0 5 true), .call (.start (some 0) 2 0 6 false), .process 0 10, .round,
    .call (.stop (some 0) 2), .call (.start (some 0) 2 10 4 false), .ret 10 14, .round,
    .call (.start (some 0) 2 14 9 false), .ret 14 14, .round]

theorem always_members_stopAndRestart :
    Run.Always step (fun s => s.mode = .idle → s.system.Members) init stopAndRestart := by
  apply always_members
  iterate 8 refine .cons rfl trivial ?_
  refine .cons rfl ?_ ?_
  · rintro _ _ _ _ ⟨⟩ ⟨⟩ -
    exact ⟨rfl, rfl, by decide⟩
  iterate 2 refine .cons rfl trivial ?_
  refine .cons rfl ?_ (.cons rfl trivial trivial)
  rintro _ _ _ _ ⟨⟩ ⟨⟩ ⟨⟩

/-- The timer is put into the heap twice. -/
theorem not_members_after_periodicRestart :
    ¬ Run.Always step (fun s => s.mode = .idle → s.system.Members) init periodicRestart := by
  obtain ⟨s, hs, hmode, hsize, hnodes⟩ : ∃ s, Run.exec step init periodicRestart = some s ∧
      s.mode = .idle ∧ (s.system.heaps 0).size = 2 ∧
        (s.system.heaps 0).nodes 0 = (s.system.heaps 0).nodes 1 :=
    ⟨_, rfl, rfl, by decide, by decide⟩
  intro h
  have hinj := (h.last hs hmode).inj 0
  rw [hsize] at hinj
  exact absurd (hinj (Set.mem_Iio.mpr Nat.two_pos) (Set.mem_Iio.mpr Nat.one_lt_two) hnodes)
    Nat.zero_ne_one

/-- A periodic timer whose callback deletes another timer, and is deleted after its callback. -/
theorem always_noFreed_delete_other :
    Run.Always step NoFreed init
      [.call (.create 1 (some 7) 0 none), .call (.create 2 (some 8) 0 none),
        .call (.start (some 0) 1 0 5 true), .call (.start (some 0) 2 0 6 false), .process 0 10,
        .round, .call (.delete 2), .ret 10 10, .round, .call (.delete 1)] := by
  apply always_noFreed
  iterate 6 refine .cons rfl trivial ?_
  refine .cons rfl (by rintro _ _ ⟨⟩) ?_
  refine .cons rfl ?_ ?_
  · rintro _ _ _ _ ⟨⟩ ⟨⟩ -
    exact ⟨rfl, rfl, by decide⟩
  · exact .cons rfl trivial (.cons rfl (by rintro _ _ ⟨⟩) trivial)

/-- A callback deletes the timer that is firing, which `process_timers` goes on with. -/
theorem not_noFreed_after_delete :
    ¬ Run.Always step NoFreed init
      [.call (.create 1 (some 7) 0 none), .call (.start (some 0) 1 0 5 false), .process 0 5, .round,
        .call (.delete 1)] := by
  intro h
  exact (h.last rfl).firing 0 1 (some 7) rfl rfl

end TimerRun

end GeminiNOS

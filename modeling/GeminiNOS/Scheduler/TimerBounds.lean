import GeminiNOS.Scheduler.TimerCallbacks

/-! # Bounds of the timer heap

`nos_timer_start` tests for room before it writes. The re-arm of `process_timers` does
not: it writes where the root was taken away, unless the callback has filled the heap
in between. The indices that both write are collected beside the run.
-/

namespace GeminiNOS

open Foundations ArrayHeap

def NosTimerHeap.pushWrites (heap : NosTimerHeap) (timers : TimerId → Option NosTimer)
    (timer : TimerId) : List ℕ :=
  insertLastWrites (expireAt timers) heap.nodes heap.size timer

/-- A run, and the indices written so far by `nos_timer_start` and by the re-arm, with the thread
whose heap it was. -/
structure TimerWrites where
  run : TimerRun
  written : List (ThreadId × ℕ)

namespace TimerRun

def writes (s : TimerRun) : TimerAction → List (ThreadId × ℕ)
  | .call (.start (some thread) timer now intervalMs isPeriodic) =>
    match s.system.nosTimerStart (some thread) timer now intervalMs isPeriodic with
    | some (.ok, system) =>
      ((s.system.heaps thread).pushWrites system.timers timer).map fun i => (thread, i)
    | _ => []
  | .ret later _ =>
    match s.mode with
    | .firing thread timer _ =>
      match s.system.timers timer with
      | some t =>
        if t.isPeriodic then
          ((s.system.heaps thread).pushWrites (s.system.rearm thread timer t later).timers
            timer).map fun i => (thread, i)
        else []
      | none => []
    | _ => []
  | _ => []

end TimerRun

namespace TimerWrites

open TimerRun (writes)

def init : TimerWrites := ⟨TimerRun.init, []⟩

def step (s : TimerWrites) (a : TimerAction) : Option TimerWrites :=
  (s.run.step a).map fun run => ⟨run, s.written ++ s.run.writes a⟩

/-- Every index written is smaller than the capacity of its heap, and no size exceeds it. -/
def InBounds (s : TimerWrites) : Prop :=
  (∀ w ∈ s.written, w.2 < (s.run.system.heaps w.1).capacity) ∧
    ∀ thread, (s.run.system.heaps thread).size ≤ (s.run.system.heaps thread).capacity

/-- When the callback of a timer returns that is then periodic, the heap has room for it. -/
def RoomAtRearm (s : TimerWrites) : TimerAction → Prop
  | .ret _ _ => ∀ thread timer callback t, s.run.mode = .firing thread timer callback →
      s.run.system.timers timer = some t → t.isPeriodic = true →
        (s.run.system.heaps thread).size < (s.run.system.heaps thread).capacity
  | _ => True

variable {s s' : TimerWrites} {run : TimerRun} {system system' : TimerSystem} {a : TimerAction}
  {thread : ThreadId} {timer : TimerId} {timers : TimerId → Option NosTimer}

/-- No heap is larger than before, and each has the same capacity. -/
def NoLarger (system system' : TimerSystem) : Prop :=
  ∀ thread, (system'.heaps thread).size ≤ (system.heaps thread).size ∧
    (system'.heaps thread).capacity = (system.heaps thread).capacity

theorem noLarger_of_heaps (h : system'.heaps = system.heaps) : NoLarger system system' :=
  fun thread => by simp [h]

theorem noLarger_disarm (thread : ThreadId) (i : ℕ) (timer : TimerId) (x : Option NosTimer) :
    NoLarger system (system.disarm thread i timer x) := by
  intro thread'
  by_cases he : thread' = thread
  · subst he
    simp [TimerSystem.disarm, NosTimerHeap.removeNode]
  · simp [TimerSystem.disarm, Function.update_of_ne he]

/-- A step writes at the end of one heap, which has room if it is a start, or no heap grows. -/
theorem step_cases (h : s.run.step a = some run) :
    (s.RoomAtRearm a ∧ s.run.writes a = [] ∧ NoLarger s.run.system run.system) ∨
      ∃ thread timers timer,
        (s.RoomAtRearm a ↔
          (s.run.system.heaps thread).size < (s.run.system.heaps thread).capacity) ∧
        s.run.writes a =
          ((s.run.system.heaps thread).pushWrites timers timer).map (fun i => (thread, i)) ∧
        run.system.heaps = Function.update s.run.system.heaps thread
          ((s.run.system.heaps thread).push timers timer) := by
  cases a with
  | call call =>
    simp only [TimerRun.step] at h
    split at h
    · rename_i hready
      obtain ⟨system, hstep, rfl⟩ := Option.map_eq_some_iff.mp h
      cases call with
      | create timer callback arg freeArg =>
        simp only [timerStep, Option.ite_none_right_eq_some, Option.some.injEq] at hstep
        obtain ⟨-, rfl⟩ := hstep
        exact .inl ⟨trivial, rfl, noLarger_of_heaps rfl⟩
      | start thread timer now intervalMs isPeriodic =>
        obtain ⟨r, hr, rfl⟩ := Option.map_eq_some_iff.mp hstep
        rcases TimerSystem.nosTimerStart_some hr with
          rfl | ⟨thread, t, rfl, -, -, -, hroom, rfl⟩
        · refine .inl ⟨trivial, ?_, noLarger_of_heaps rfl⟩
          cases thread with
          | none => rfl
          | some thread => simp [writes, hr]
        · refine .inr ⟨thread, _, timer, iff_of_true trivial hroom, ?_, rfl⟩
          simp [writes, hr, TimerSystem.arm]
      | stop thread timer =>
        obtain ⟨r, hr, rfl⟩ := Option.map_eq_some_iff.mp hstep
        refine .inl ⟨trivial, rfl, ?_⟩
        rcases TimerSystem.nosTimerStop_cases hr with ⟨rfl, -⟩ | ⟨thread', t, i, -, -, -, rfl⟩
        · exact noLarger_of_heaps rfl
        · exact noLarger_disarm thread' i timer _
      | delete timer =>
        refine .inl ⟨trivial, rfl, ?_⟩
        rcases TimerSystem.nosTimerDelete_cases hstep with hheaps | ⟨thread, i, -, rfl⟩
        · exact noLarger_of_heaps hheaps
        · exact noLarger_disarm thread i timer none
      | process thread clock => exact absurd hready id
    · cases h
  | process thread now =>
    simp only [TimerRun.step] at h
    split at h
    · obtain rfl := Option.some.inj h
      exact .inl ⟨trivial, rfl, noLarger_of_heaps rfl⟩
    · cases h
  | round =>
    refine .inl ⟨trivial, rfl, ?_⟩
    simp only [TimerRun.step] at h
    split at h
    · split at h
      · obtain ⟨t, -, rfl⟩ := Option.map_eq_some_iff.mp h
        exact noLarger_disarm _ 0 _ _
      · obtain rfl := Option.some.inj h
        exact noLarger_of_heaps rfl
    · cases h
  | ret later now =>
    simp only [TimerRun.step] at h
    split at h
    · rename_i thread timer callback hmode
      obtain ⟨t, ht, rfl⟩ := Option.map_eq_some_iff.mp h
      by_cases hperiodic : t.isPeriodic = true
      · refine .inr ⟨thread, (s.run.system.rearm thread timer t later).timers, timer,
          ⟨fun hroom => ?_, fun hroom => ?_⟩, ?_, ?_⟩
        · exact hroom thread timer callback t hmode ht hperiodic
        · intro thread' timer' callback' t' hmode' _ _
          rw [hmode] at hmode'
          cases hmode'
          exact hroom
        · simp only [writes, hmode, ht, hperiodic, if_true]
        · simp only [hperiodic, if_true, TimerSystem.rearm, TimerSystem.arm]
      · refine .inl ⟨?_, ?_, noLarger_of_heaps (by simp [hperiodic])⟩
        · intro thread' timer' callback' t' hmode' ht' hperiodic'
          rw [hmode] at hmode'
          cases hmode'
          rw [ht] at ht'
          obtain rfl := Option.some.inj ht'
          exact absurd hperiodic' hperiodic
        · simp only [writes, hmode, ht, hperiodic]
          rfl
    · cases h

/-- From a state in bounds, a step stays in bounds exactly if it has room where it pushes. -/
theorem InBounds.step_iff (h : s.InBounds) (hs : s.step a = some s') :
    s'.InBounds ↔ s.RoomAtRearm a := by
  obtain ⟨run, hrun, rfl⟩ := Option.map_eq_some_iff.mp hs
  rcases step_cases hrun with ⟨hroom, hw, hle⟩ | ⟨thread, timers, timer, hroom, hw, hheaps⟩
  · refine iff_of_true ⟨fun w hmem => ?_, fun thread => ?_⟩ hroom
    · rw [hw, List.append_nil] at hmem
      exact (h.1 w hmem).trans_eq (hle w.1).2.symm
    · exact (hle thread).1.trans ((h.2 thread).trans_eq (hle thread).2.symm)
  · have hcap : ∀ thread', (run.system.heaps thread').capacity =
        (s.run.system.heaps thread').capacity := by
      intro thread'
      rw [hheaps, Function.update_apply]
      split_ifs with he
      · rw [he, NosTimerHeap.push]
      · rfl
    rw [hroom]
    constructor
    · rintro ⟨-, hsize⟩
      have := hsize thread
      rw [hcap, hheaps, Function.update_self] at this
      exact this
    · intro hlt
      refine ⟨fun w hmem => ?_, fun thread' => ?_⟩
      · rw [hcap]
        rcases List.mem_append.mp hmem with hmem | hmem
        · exact h.1 w hmem
        · rw [hw] at hmem
          obtain ⟨i, hi, rfl⟩ := List.mem_map.mp hmem
          exact forall_insertLastWrites_lt_iff.mpr hlt i hi
      · rw [hcap, hheaps, Function.update_apply]
        split_ifs with he
        · rw [he]
          exact hlt
        · exact h.2 thread'

theorem inBounds_init : init.InBounds := by
  refine ⟨fun w hw => ?_, fun thread => Nat.zero_le _⟩
  cases hw

/-- Along a run, every index written by `nos_timer_start` and by the re-arm stays below the
capacity, and no size exceeds it, if and only if every re-arm finds room in the heap. -/
theorem inBounds_iff_roomAtRearm (actions : List TimerAction) :
    Run.Always step InBounds init actions ↔ Run.Guarded step RoomAtRearm init actions :=
  Run.always_iff_guarded (fun _ h => h) (fun _ _ _ _ _ h => h) (fun _ _ _ h hs => h.step_iff hs)
    inBounds_init

/-- A periodic timer whose callback creates and starts this many others. -/
def startInCallback (n : ℕ) : List TimerAction :=
  [.call (.create 1 (some 7) 0 none), .call (.start (some 0) 1 0 5 true), .process 0 5, .round] ++
    (List.range n).flatMap (fun i =>
      [.call (.create (i + 2) (some 8) 0 none), .call (.start (some 0) (i + 2) 5 9 false)]) ++
    [.ret 6 6]

theorem heap_after_startInCallback :
    (Run.exec step init (startInCallback 128)).map (fun s =>
      ((s.run.system.heaps 0).size, (s.run.system.heaps 0).capacity)) = some (129, 128) := by
  decide +kernel

/-- The callback fills the heap, and the re-arm writes behind its end. -/
theorem not_inBounds_after_startInCallback :
    ¬ Run.Always step InBounds init (startInCallback 128) := by
  intro h
  obtain ⟨s, hin, hheap⟩ := h.exists_last _ _ heap_after_startInCallback
  obtain ⟨hsize, hcap⟩ := Prod.mk.inj hheap
  have := hin.2 0
  omega

end TimerWrites

end GeminiNOS

import GeminiNOS.Scheduler.TimerOrder

/-! # Draining the due timers

With callbacks that leave the timers alone and a clock that stands still, a call of
`process_timers` fires the due timers one after another and ends. A periodic timer that
has fired is not due again, unless its new expiry wraps around.
-/

namespace GeminiNOS

open Foundations ArrayHeap

def TimerCall.Starts : TimerCall → Prop
  | .stop _ _ => False
  | .delete _ => False
  | _ => True

namespace TimerSystem

def DueIn (s : TimerSystem) (thread : ThreadId) (now : ℕ) (timer : TimerId) : Prop :=
  s.InHeap thread timer ∧ expireAt s.timers timer ≤ now

def PositiveIntervals (s : TimerSystem) (thread : ThreadId) : Prop :=
  ∀ timer t, s.InHeap thread timer → s.timers timer = some t → t.isPeriodic = true →
    0 < t.intervalMs

/-- The new expiry of every periodic timer that is due fits into 64 bits. -/
def NoWrap (s : TimerSystem) (thread : ThreadId) (now : ℕ) : Prop :=
  ∀ timer t, s.DueIn thread now timer → s.timers timer = some t → t.isPeriodic = true →
    now + t.intervalMs < 2 ^ 64

/-- What a call that fires these timers has done to the timers and to the heap of the thread. -/
structure Drained (s : TimerSystem) (thread : ThreadId) (now : ℕ) (s' : TimerSystem)
    (fired : List TimerId) : Prop where
  nodup : fired.Nodup
  mem_fired : ∀ timer, timer ∈ fired ↔ s.DueIn thread now timer
  sorted : fired.Pairwise fun a b => expireAt s.timers a ≤ expireAt s.timers b
  inHeap : ∀ timer, s'.InHeap thread timer ↔ s.InHeap thread timer ∧
    (timer ∈ fired → ∀ t, s.timers timer = some t → t.isPeriodic = true)
  oneShot : ∀ timer ∈ fired, ∀ t, s.timers timer = some t → t.isPeriodic = false →
    s'.timers timer = some { t with isRunning := false }
  periodic : ∀ timer ∈ fired, ∀ t, s.timers timer = some t → t.isPeriodic = true →
    s'.timers timer = some { t with expireAtMs := now + t.intervalMs, isRunning := true }
  untouched : ∀ timer, timer ∉ fired → s'.timers timer = s.timers timer
  otherHeaps : ∀ thread', thread' ≠ thread → s'.heaps thread' = s.heaps thread'
  isHeap : IsHeap (expireAt s'.timers) (s'.heaps thread).nodes (s'.heaps thread).size
  injOn : Set.InjOn (s'.heaps thread).nodes (Set.Iio (s'.heaps thread).size)

/-- At a clock that reads `now` throughout, `process_timers` ends and has fired the due timers. -/
def Drains (s : TimerSystem) (thread : ThreadId) (now : ℕ) : Prop :=
  ∃ n s' fired, (∀ clock, s.processTimers thread (List.replicate n now ++ clock) =
    some (s', fired, clock)) ∧ s.Drained thread now s' fired

variable {s s₁ s' : TimerSystem} {thread : ThreadId} {timer : TimerId} {t : NosTimer} {now : ℕ}
  {fired due : List TimerId}

/-- The root taken out, and put back if it is periodic. -/
def fire (s : TimerSystem) (thread : ThreadId) (t : NosTimer) (now : ℕ) : TimerSystem :=
  if t.isPeriodic then (s.popRoot thread t).rearm thread (s.root thread) t now
  else s.popRoot thread t

theorem fires_fire (hsize : 0 < (s.heaps thread).size) (ht : s.timers (s.root thread) = some t)
    (now : ℕ) : Fires s thread (s.fire thread t now) := by
  unfold fire
  split
  · exact .periodic hsize ht now
  · exact .oneShot hsize ht

theorem processTimersLoop_fire (hdue : s.Due thread now)
    (ht : s.timers (s.root thread) = some t) :
    ∃ k, ∀ clock, processTimersLoop thread s now (List.replicate k now ++ clock) =
      (processTimersLoop thread (s.fire thread t now) now clock).map
        fun r => (r.1, s.root thread :: r.2.1, r.2.2) := by
  cases hp : t.isPeriodic with
  | false =>
    refine ⟨1, fun clock => ?_⟩
    rw [processTimersLoop, if_pos hdue]
    simp [ht, hp, fire]
  | true =>
    refine ⟨2, fun clock => ?_⟩
    rw [processTimersLoop, if_pos hdue]
    simp [ht, hp, fire, List.replicate_succ]

theorem timers_fire_of_ne (h : timer ≠ s.root thread) :
    (s.fire thread t now).timers timer = s.timers timer := by
  unfold fire
  split <;> simp [rearm, arm, popRoot, disarm, Function.update_of_ne h]

theorem timers_fire_oneShot (hp : t.isPeriodic = false) :
    (s.fire thread t now).timers (s.root thread) = some { t with isRunning := false } := by
  simp [fire, hp, popRoot_root]

theorem timers_fire_periodic (hp : t.isPeriodic = true) :
    (s.fire thread t now).timers (s.root thread) =
      some { t with expireAtMs := u64 (now + t.intervalMs), isRunning := true } := by
  simp [fire, hp, rearm, arm]

theorem heaps_fire_of_ne {thread' : ThreadId} (h : thread' ≠ thread) :
    (s.fire thread t now).heaps thread' = s.heaps thread' := by
  unfold fire
  split <;> simp [rearm, arm, popRoot, disarm, Function.update_of_ne h]

theorem inHeap_fire (h : s.Members) (hsize : 0 < (s.heaps thread).size) :
    (s.fire thread t now).InHeap thread timer ↔
      s.InHeap thread timer ∧ (timer = s.root thread → t.isPeriodic = true) := by
  have hpop : (s.popRoot thread t).InHeap thread timer ↔
      timer ≠ s.root thread ∧ s.InHeap thread timer := by
    rw [popRoot, inHeap_disarm h hsize]
    simp [root]
  have hroot : s.InHeap thread (s.root thread) := ⟨0, hsize, rfl⟩
  unfold fire
  split
  · next hp =>
    rw [rearm, inHeap_arm, hpop]
    by_cases he : timer = s.root thread
    · simp [he, hp, hroot]
    · simp [he]
  · next hp =>
    rw [hpop]
    by_cases he : timer = s.root thread
    · simp [he, hp]
    · simp [he]

theorem Members.some_of_inHeap (h : s.Members) (hin : s.InHeap thread timer) :
    ∃ t, s.timers timer = some t := by
  obtain ⟨t, ht, -⟩ := (h.mem_iff thread timer).mp hin
  exact ⟨t, ht⟩

/-- Every due timer but the root stays due through a round, and none becomes due. -/
theorem dueIn_fire (h : s.Members) (hsize : 0 < (s.heaps thread).size)
    (hlater : t.isPeriodic = true → now < u64 (now + t.intervalMs)) :
    (s.fire thread t now).DueIn thread now timer ↔
      timer ≠ s.root thread ∧ s.DueIn thread now timer := by
  by_cases he : timer = s.root thread
  · subst he
    refine iff_of_false ?_ fun hne => hne.1 rfl
    rintro ⟨hin, hle⟩
    have hp := ((inHeap_fire h hsize).mp hin).2 rfl
    rw [expireAt_some (timers_fire_periodic hp)] at hle
    exact absurd (hlater hp) (not_lt.mpr hle)
  · simp [DueIn, inHeap_fire h hsize, he, expireAt, timers_fire_of_ne he]

theorem PositiveIntervals.fire (hpos : s.PositiveIntervals thread) (h : s.Members)
    (hsize : 0 < (s.heaps thread).size) (ht : s.timers (s.root thread) = some t) :
    (s.fire thread t now).PositiveIntervals thread := by
  intro timer t' hin ht' hp'
  obtain ⟨hin, hperiodic⟩ := (inHeap_fire h hsize).mp hin
  by_cases he : timer = s.root thread
  · subst he
    rw [timers_fire_periodic (hperiodic rfl)] at ht'
    rw [← Option.some.inj ht']
    exact hpos _ t hin ht (hperiodic rfl)
  · rw [timers_fire_of_ne he] at ht'
    exact hpos timer t' hin ht' hp'

theorem Drained.cons (hd : (s.fire thread t now).Drained thread now s' fired) (h : s.Members)
    (ho : s.Ordered) (hdue : s.Due thread now) (ht : s.timers (s.root thread) = some t)
    (hlater : t.isPeriodic = true → 0 < t.intervalMs ∧ now + t.intervalMs < 2 ^ 64) :
    s.Drained thread now s' (s.root thread :: fired) := by
  have hu64 : t.isPeriodic = true → u64 (now + t.intervalMs) = now + t.intervalMs := fun hp =>
    Nat.mod_eq_of_lt (hlater hp).2
  have hmem : ∀ timer, timer ∈ fired ↔ timer ≠ s.root thread ∧ s.DueIn thread now timer := by
    intro timer
    rw [hd.mem_fired]
    refine dueIn_fire h hdue.1 fun hp => ?_
    rw [hu64 hp]
    have := (hlater hp).1
    omega
  have hroot : s.root thread ∉ fired := fun hin => ((hmem _).mp hin).1 rfl
  have hexpire : ∀ timer ∈ fired,
      expireAt (s.fire thread t now).timers timer = expireAt s.timers timer := by
    intro timer hin
    simp [expireAt, timers_fire_of_ne ((hmem timer).mp hin).1]
  refine
    { nodup := List.nodup_cons.mpr ⟨hroot, hd.nodup⟩
      mem_fired := fun timer => ?_
      sorted := List.pairwise_cons.mpr ⟨fun timer hin => ?_, ?_⟩
      inHeap := fun timer => ?_
      oneShot := fun timer hin t' ht' hp => ?_
      periodic := fun timer hin t' ht' hp => ?_
      untouched := fun timer hin => ?_
      otherHeaps := fun thread' hne => ?_
      isHeap := hd.isHeap
      injOn := hd.injOn }
  · rw [List.mem_cons, hmem]
    by_cases he : timer = s.root thread
    · subst he
      exact iff_of_true (.inl rfl) ⟨⟨0, hdue.1, rfl⟩, hdue.2⟩
    · simp [he]
  · obtain ⟨k, hk, hn⟩ := ((hmem timer).mp hin).2.1
    rw [← hn]
    exact (ho thread).root_le hk
  · refine hd.sorted.imp_of_mem fun ha hb hle => ?_
    rwa [hexpire _ ha, hexpire _ hb] at hle
  · rw [hd.inHeap, inHeap_fire h hdue.1]
    by_cases he : timer = s.root thread
    · subst he
      simp [hroot, ht]
    · simp [he, timers_fire_of_ne he]
  · rcases List.mem_cons.mp hin with rfl | hin
    · rw [ht] at ht'
      obtain rfl := Option.some.inj ht'
      rw [hd.untouched _ hroot, timers_fire_oneShot hp]
    · refine hd.oneShot timer hin t' ?_ hp
      rwa [timers_fire_of_ne ((hmem timer).mp hin).1]
  · rcases List.mem_cons.mp hin with rfl | hin
    · rw [ht] at ht'
      obtain rfl := Option.some.inj ht'
      rw [hd.untouched _ hroot, timers_fire_periodic hp, hu64 hp]
    · refine hd.periodic timer hin t' ?_ hp
      rwa [timers_fire_of_ne ((hmem timer).mp hin).1]
  · rw [List.mem_cons, not_or] at hin
    rw [hd.untouched timer hin.2, timers_fire_of_ne hin.1]
  · rw [hd.otherHeaps thread' hne, heaps_fire_of_ne hne]

theorem Drained.nil (h : s.Members) (ho : s.Ordered) (hdue : ¬ s.Due thread now) :
    s.Drained thread now s [] where
  nodup := List.nodup_nil
  mem_fired timer := by
    refine iff_of_false List.not_mem_nil ?_
    rintro ⟨⟨k, hk, hn⟩, hle⟩
    rw [← hn] at hle
    exact hdue ⟨Nat.zero_lt_of_lt hk, ((ho thread).root_le hk).trans hle⟩
  sorted := List.Pairwise.nil
  inHeap timer := by simp
  oneShot timer hin := absurd hin List.not_mem_nil
  periodic timer hin := absurd hin List.not_mem_nil
  untouched timer _ := rfl
  otherHeaps thread' _ := rfl
  isHeap := ho thread
  injOn := h.inj thread

theorem exists_due (s : TimerSystem) (thread : ThreadId) (now : ℕ) :
    ∃ due : List TimerId, due.length = (s.heaps thread).size ∧
      ∀ timer, s.DueIn thread now timer → timer ∈ due := by
  refine ⟨(List.range (s.heaps thread).size).map (s.heaps thread).nodes, by simp,
    fun timer hdue => ?_⟩
  obtain ⟨k, hk, hn⟩ := hdue.1
  exact List.mem_map.mpr ⟨k, List.mem_range.mpr hk, hn⟩

/-- By induction on a list that holds the due timers: each round takes the root out of it. -/
theorem exists_drained (hdue : ∀ timer, s.DueIn thread now timer → timer ∈ due) (h : s.Members)
    (ho : s.Ordered) (hpos : s.PositiveIntervals thread) (hwrap : s.NoWrap thread now) :
    ∃ n s' fired, (∀ clock, processTimersLoop thread s now (List.replicate n now ++ clock) =
      some (s', fired, clock)) ∧ s.Drained thread now s' fired := by
  induction hlen : due.length generalizing s due with
  | zero =>
    obtain rfl := List.eq_nil_of_length_eq_zero hlen
    have hnot : ¬ s.Due thread now := fun hd =>
      List.not_mem_nil (hdue (s.root thread) ⟨⟨0, hd.1, rfl⟩, hd.2⟩)
    refine ⟨0, s, [], fun clock => ?_, .nil h ho hnot⟩
    rw [processTimersLoop, if_neg hnot]
    rfl
  | succ m ih =>
    by_cases hd : s.Due thread now
    · have hin : s.InHeap thread (s.root thread) := ⟨0, hd.1, rfl⟩
      obtain ⟨t, ht⟩ := h.some_of_inHeap hin
      have hlater : t.isPeriodic = true → 0 < t.intervalMs ∧ now + t.intervalMs < 2 ^ 64 :=
        fun hp => ⟨hpos _ t hin ht hp, hwrap _ t ⟨hin, hd.2⟩ ht hp⟩
      have hdueIn : ∀ timer, (s.fire thread t now).DueIn thread now timer ↔
          timer ≠ s.root thread ∧ s.DueIn thread now timer := by
        refine fun timer => dueIn_fire h hd.1 fun hp => ?_
        rw [u64, Nat.mod_eq_of_lt (hlater hp).2]
        have := (hlater hp).1
        omega
      have hfire := fires_fire hd.1 ht now
      obtain ⟨n, s', fired, hrun, hdrained⟩ := ih
        (fun timer htimer => (List.mem_erase_of_ne ((hdueIn timer).mp htimer).1).mpr
          (hdue timer ((hdueIn timer).mp htimer).2))
        (h.fires hfire) (ho.fires h hfire) (hpos.fire h hd.1 ht)
        (fun timer t' htimer ht' hp' => by
          obtain ⟨hne, htimer⟩ := (hdueIn timer).mp htimer
          rw [timers_fire_of_ne hne] at ht'
          exact hwrap timer t' htimer ht' hp')
        (by rw [List.length_erase_of_mem (hdue _ ⟨hin, hd.2⟩), hlen, Nat.add_sub_cancel])
      obtain ⟨k, hk⟩ := processTimersLoop_fire hd ht
      refine ⟨k + n, s', s.root thread :: fired, fun clock => ?_, hdrained.cons h ho hd ht hlater⟩
      rw [← List.replicate_append_replicate, List.append_assoc, hk, hrun]
      rfl
    · refine ⟨0, s, [], fun clock => ?_, .nil h ho hd⟩
      rw [processTimersLoop, if_neg hd]
      rfl

theorem members_and_ordered_of_starts {calls : List TimerCall} (hcalls : ∀ c ∈ calls, c.Starts)
    (h : Run.exec timerStep init calls = some s) : s.Members ∧ s.Ordered := by
  have hfits : Run.Guarded timerStep (fun _ c => c.Starts) init calls :=
    Run.guarded_of_forall hcalls
  have halways : Run.Always timerStep (fun s => s.Members ∧ s.Ordered) init calls := by
    refine Run.always_of_guarded (fun s c s' hi hc hs => ?_) (fun _ hi => hi)
      ⟨members_init, ordered_init⟩ hfits
    refine ⟨hi.1.step hs, (hi.2.step_iff hi.1 hs).mpr ?_⟩
    cases c with
    | stop thread timer => exact hc.elim
    | delete timer => exact hc.elim
    | create | start | process => trivial
  exact halways.last h

/-- In a state reached without a stop or a deletion, with positive periodic intervals and new
expiries that fit into 64 bits, `process_timers` fires exactly the due timers, each once and in
order of expiry, and leaves the heap of the others and of the periodic ones ordered. -/
theorem drains_of_starts {calls : List TimerCall} (hcalls : ∀ c ∈ calls, c.Starts)
    (h : Run.exec timerStep init calls = some s) (hpos : s.PositiveIntervals thread)
    (hwrap : s.NoWrap thread now) : s.Drains thread now := by
  obtain ⟨hm, ho⟩ := members_and_ordered_of_starts hcalls h
  obtain ⟨due, -, hdue⟩ := s.exists_due thread now
  obtain ⟨n, s', fired, hrun, hd⟩ := exists_drained hdue hm ho hpos hwrap
  exact ⟨n + 1, s', fired, fun clock => hrun clock, hd⟩

/-- A one-shot timer at 7 ms and a periodic one at 5 ms. -/
def twoTimers : List TimerCall :=
  [.create 1 (some 7) 0 none, .create 2 (some 8) 0 none, .start (some 0) 1 0 7 false,
    .start (some 0) 2 0 5 true]

theorem drains_twoTimers :
    ∃ s, Run.exec timerStep init twoTimers = some s ∧ s.Drains 0 10 := by
  obtain ⟨s, hs⟩ : ∃ s, Run.exec timerStep init twoTimers = some s := ⟨_, rfl⟩
  have hinterval : ∀ timer t, s.timers timer = some t →
      0 < t.intervalMs ∧ 10 + t.intervalMs < 2 ^ 64 := by
    obtain rfl := Option.some.inj hs
    intro timer t ht
    simp only [arm, nosTimerCreate, init, Function.update_apply] at ht
    split_ifs at ht
    all_goals
      rw [← Option.some.inj ht]
      decide
  refine ⟨s, hs, drains_of_starts ?_ hs ?_ ?_⟩
  · intro c hc
    simp only [twoTimers, List.mem_cons, List.not_mem_nil, or_false] at hc
    rcases hc with rfl | rfl | rfl | rfl <;> trivial
  · exact fun timer t _ ht _ => (hinterval timer t ht).1
  · exact fun timer t _ ht _ => (hinterval timer t ht).2

/-- A single periodic timer, whose new expiry at the last clock reading wraps around. -/
structure Wrapping (s : TimerSystem) (thread : ThreadId) : Prop where
  size : (s.heaps thread).size = 1
  root : ∃ t, s.timers (s.root thread) = some t ∧ t.isPeriodic = true ∧ t.intervalMs = 1 ∧
    t.expireAtMs ≤ 2 ^ 64 - 1

theorem Wrapping.isDue (h : s.Wrapping thread) : s.Due thread (2 ^ 64 - 1) := by
  obtain ⟨t, ht, -, -, hle⟩ := h.root
  refine ⟨by rw [h.size]; exact Nat.one_pos, ?_⟩
  rwa [expireAt_some ht]

theorem Wrapping.fire (h : s.Wrapping thread) (ht : s.timers (s.root thread) = some t) :
    (s.fire thread t (2 ^ 64 - 1)).Wrapping thread := by
  obtain ⟨t', ht', hp, hinterval, -⟩ := h.root
  rw [ht] at ht'
  obtain rfl := Option.some.inj ht'
  have hheap : (s.popRoot thread t).heaps thread =
      (s.heaps thread).removeNode s.timers 0 := by simp [popRoot, disarm]
  have hsize : ((s.popRoot thread t).heaps thread).size = 0 := by
    rw [hheap, NosTimerHeap.removeNode, h.size]
  have hroot : (s.fire thread t (2 ^ 64 - 1)).root thread = s.root thread := by
    simp [TimerSystem.root, TimerSystem.fire, hp, rearm, arm, NosTimerHeap.push, hsize,
      insertLast, siftUp]
  have htimers : (s.fire thread t (2 ^ 64 - 1)).timers (s.root thread) = _ :=
    timers_fire_periodic hp
  constructor
  · simp [TimerSystem.fire, hp, rearm, arm, NosTimerHeap.push, hsize]
  · rw [hroot]
    have hle : u64 (2 ^ 64 - 1 + t.intervalMs) ≤ 2 ^ 64 - 1 :=
      Nat.le_sub_one_of_lt (Nat.mod_lt _ (by decide))
    exact ⟨_, htimers, hp, hinterval, hle⟩

theorem processTimersLoop_wrapping (h : s.Wrapping thread) (n : ℕ) :
    processTimersLoop thread s (2 ^ 64 - 1) (List.replicate n (2 ^ 64 - 1)) = none := by
  induction n using Nat.twoStepInduction generalizing s with
  | zero =>
    obtain ⟨t, ht, hp, -⟩ := h.root
    rw [processTimersLoop, if_pos h.isDue]
    simp [ht, hp]
  | one =>
    obtain ⟨t, ht, hp, -⟩ := h.root
    rw [processTimersLoop, if_pos h.isDue]
    simp [ht, hp]
  | more n ih _ =>
    obtain ⟨t, ht, hp, -⟩ := h.root
    have hfire := ih (h.fire ht)
    rw [TimerSystem.fire, if_pos hp] at hfire
    rw [processTimersLoop, if_pos h.isDue]
    simp only [ht, hp, List.replicate_succ, hfire, Option.map_none]

/-- At the last clock reading a periodic timer with interval 1 fires without end. -/
theorem not_drains_at_last_reading :
    ∃ s, Run.exec timerStep init [.create 1 (some 7) 0 none, .start (some 0) 1 0 1 true] = some s ∧
      s.PositiveIntervals 0 ∧ ¬ s.Drains 0 (2 ^ 64 - 1) := by
  refine ⟨_, rfl, ?_, ?_⟩
  · rintro timer t - ht -
    simp only [arm, nosTimerCreate, init, Function.update_apply] at ht
    split_ifs at ht
    rw [← Option.some.inj ht]
    decide
  · rintro ⟨n, s', fired, hrun, -⟩
    have hclock := hrun []
    rw [List.append_nil] at hclock
    cases n with
    | zero => cases hclock
    | succ n =>
      rw [List.replicate_succ, processTimers, processTimersLoop_wrapping] at hclock
      · cases hclock
      · exact ⟨rfl, _, rfl, rfl, rfl, by decide⟩

end TimerSystem

end GeminiNOS

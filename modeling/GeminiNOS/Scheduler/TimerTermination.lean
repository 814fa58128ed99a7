import GeminiNOS.Scheduler.TimerDrain

/-! # Termination of `process_timers`

With callbacks that leave the timers alone and a clock that stands still, each round of the
loop takes a due timer out of the heap or re-arms it. A timer that is re-armed behind the
clock reading is not due again, and one that is not keeps an ordered heap due for ever.
-/

namespace GeminiNOS

open Foundations ArrayHeap

namespace TimerSystem

/-- At a clock that reads `now` throughout, `process_timers` ends after at most as many fires as
there are timers in the heap. -/
def EndsInTime (s : TimerSystem) (thread : ThreadId) (now : ℕ) : Prop :=
  ∃ n s' fired, (∀ clock, s.processTimers thread (List.replicate n now ++ clock) =
    some (s', fired, clock)) ∧ fired.length ≤ (s.heaps thread).size

/-- Every periodic timer that is due is re-armed for a time after the clock reading. -/
def RearmsLater (s : TimerSystem) (thread : ThreadId) (now : ℕ) : Prop :=
  ∀ timer t, s.DueIn thread now timer → s.timers timer = some t → t.isPeriodic = true →
    now < u64 (now + t.intervalMs)

/-- A periodic timer is due and stays due when it is re-armed. -/
def Stuck (s : TimerSystem) (thread : ThreadId) (now : ℕ) : Prop :=
  ∃ timer t, s.DueIn thread now timer ∧ s.timers timer = some t ∧ t.isPeriodic = true ∧
    u64 (now + t.intervalMs) ≤ now

variable {s s' : TimerSystem} {thread : ThreadId} {timer : TimerId} {t : NosTimer} {now : ℕ}
  {due : List TimerId} {calls : List TimerCall}

theorem stuck_of_not_rearmsLater (h : ¬ s.RearmsLater thread now) : s.Stuck thread now := by
  simp only [RearmsLater, not_forall, not_lt] at h
  obtain ⟨timer, t, hdue, ht, hp, hle⟩ := h
  exact ⟨timer, t, hdue, ht, hp, hle⟩

theorem RearmsLater.root (h : s.RearmsLater thread now) (hdue : s.Due thread now)
    (ht : s.timers (s.root thread) = some t) :
    t.isPeriodic = true → now < u64 (now + t.intervalMs) :=
  h (s.root thread) t ⟨⟨0, hdue.1, rfl⟩, hdue.2⟩ ht

theorem RearmsLater.fire (h : s.RearmsLater thread now) (hm : s.Members)
    (hdue : s.Due thread now) (ht : s.timers (s.root thread) = some t) :
    (s.fire thread t now).RearmsLater thread now := by
  intro timer t' hin ht'
  obtain ⟨hne, hin⟩ := (dueIn_fire hm hdue.1 (h.root hdue ht)).mp hin
  rw [timers_fire_of_ne hne] at ht'
  exact h timer t' hin ht'

/-- By induction on a list that holds the due timers: each round takes the root out of it. -/
theorem exists_end (hdue : ∀ timer, s.DueIn thread now timer → timer ∈ due) (hm : s.Members)
    (h : s.RearmsLater thread now) :
    ∃ n s' fired, (∀ clock, processTimersLoop thread s now (List.replicate n now ++ clock) =
      some (s', fired, clock)) ∧ fired.length ≤ due.length := by
  induction hlen : due.length generalizing s due with
  | zero =>
    obtain rfl := List.eq_nil_of_length_eq_zero hlen
    have hnot : ¬ s.Due thread now := fun hd =>
      List.not_mem_nil (hdue (s.root thread) ⟨⟨0, hd.1, rfl⟩, hd.2⟩)
    refine ⟨0, s, [], fun clock => ?_, Nat.zero_le _⟩
    rw [processTimersLoop, if_neg hnot]
    rfl
  | succ m ih =>
    by_cases hd : s.Due thread now
    · have hin : s.InHeap thread (s.root thread) := ⟨0, hd.1, rfl⟩
      obtain ⟨t, ht⟩ := hm.some_of_inHeap hin
      have hrest : ∀ timer, (s.fire thread t now).DueIn thread now timer →
          timer ∈ due.erase (s.root thread) := by
        intro timer htimer
        obtain ⟨hne, htimer⟩ := (dueIn_fire hm hd.1 (h.root hd ht)).mp htimer
        exact (List.mem_erase_of_ne hne).mpr (hdue timer htimer)
      have herase : (due.erase (s.root thread)).length = m := by
        rw [List.length_erase_of_mem (hdue _ ⟨hin, hd.2⟩), hlen, Nat.add_sub_cancel]
      obtain ⟨n, s', fired, hrun, hle⟩ :=
        ih hrest (hm.fires (fires_fire hd.1 ht now)) (h.fire hm hd ht) herase
      obtain ⟨k, hk⟩ := processTimersLoop_fire hd ht
      refine ⟨k + n, s', s.root thread :: fired, fun clock => ?_, Nat.succ_le_succ hle⟩
      rw [← List.replicate_append_replicate, List.append_assoc, hk, hrun]
      rfl
    · refine ⟨0, s, [], fun clock => ?_, Nat.zero_le _⟩
      rw [processTimersLoop, if_neg hd]
      rfl

theorem Members.endsInTime (hm : s.Members) (h : s.RearmsLater thread now) :
    s.EndsInTime thread now := by
  obtain ⟨due, hlen, hdue⟩ := s.exists_due thread now
  obtain ⟨n, s', fired, hrun, hle⟩ := exists_end hdue hm h
  exact ⟨n + 1, s', fired, fun clock => hrun clock, hle.trans_eq hlen⟩

theorem Stuck.isDue (h : s.Stuck thread now) (ho : s.Ordered) : s.Due thread now := by
  obtain ⟨timer, t, ⟨⟨k, hk, rfl⟩, hle⟩, -⟩ := h
  exact ⟨Nat.zero_lt_of_lt hk, ((ho thread).root_le hk).trans hle⟩

/-- A round leaves the stuck timer in the heap, as the root that it re-arms or untouched. -/
theorem Stuck.fire (h : s.Stuck thread now) (hm : s.Members) (hdue : s.Due thread now)
    (ht : s.timers (s.root thread) = some t) : (s.fire thread t now).Stuck thread now := by
  obtain ⟨timer, t', ⟨hin, hle⟩, ht', hp, hstuck⟩ := h
  by_cases he : timer = s.root thread
  · subst he
    rw [ht] at ht'
    obtain rfl := Option.some.inj ht'
    have htimers : (s.fire thread t now).timers (s.root thread) = _ := timers_fire_periodic hp
    refine ⟨s.root thread, _, ⟨(inHeap_fire hm hdue.1).mpr ⟨hin, fun _ => hp⟩, ?_⟩, htimers, hp,
      hstuck⟩
    rw [expireAt_some htimers]
    exact hstuck
  · have htimers : (s.fire thread t now).timers timer = some t' :=
      (timers_fire_of_ne he).trans ht'
    refine ⟨timer, t', ⟨(inHeap_fire hm hdue.1).mpr ⟨hin, fun h => absurd h he⟩, ?_⟩, htimers, hp,
      hstuck⟩
    rwa [expireAt_some htimers, ← expireAt_some ht']

/-- However long the clock stands still, a loop with a stuck timer does not end. -/
theorem Stuck.processTimersLoop_eq_none (h : s.Stuck thread now) (hm : s.Members)
    (ho : s.Ordered) (n : ℕ) :
    processTimersLoop thread s now (List.replicate n now) = none := by
  induction n using Nat.strongRecOn generalizing s with
  | ind n ih =>
    have hdue := h.isDue ho
    obtain ⟨t, ht⟩ := hm.some_of_inHeap ⟨0, hdue.1, rfl⟩
    have hf := fires_fire hdue.1 ht now
    have hnext : ∀ m < n, processTimersLoop thread (s.fire thread t now) now
        (List.replicate m now) = none := fun m hm' =>
      ih m hm' (h.fire hm hdue ht) (hm.fires hf) (ho.fires hm hf)
    rw [processTimersLoop, if_pos hdue]
    simp only [show s.timers (s.root thread) = some t from ht]
    cases hp : t.isPeriodic with
    | false =>
      cases n with
      | zero => rfl
      | succ n =>
        have hnone := hnext n (Nat.lt_succ_self n)
        simp only [TimerSystem.fire, hp, Bool.false_eq_true, if_false] at hnone
        simp only [List.replicate_succ, hnone, Option.map_none]
    | true =>
      rcases n with _ | _ | n
      · rfl
      · rfl
      · have hnone := hnext n (by omega)
        simp only [TimerSystem.fire, hp, if_true] at hnone
        simp only [List.replicate_succ, hnone, Option.map_none]

theorem Stuck.not_endsInTime (h : s.Stuck thread now) (hm : s.Members) (ho : s.Ordered) :
    ¬ s.EndsInTime thread now := by
  rintro ⟨n, s', fired, hrun, -⟩
  have hclock := hrun []
  rw [List.append_nil] at hclock
  cases n with
  | zero => cases hclock
  | succ n =>
    rw [List.replicate_succ, processTimers, h.processTimersLoop_eq_none hm ho] at hclock
    cases hclock

theorem members_of_exec (h : Run.exec timerStep init calls = some s) : s.Members :=
  Run.exec_invariant (fun _ _ _ hm hs => hm.step hs) members_init h

/-- In every reachable state, `process_timers` ends in time if every periodic timer that is due is
re-armed for a time after the clock reading. On an ordered heap, as starts and fires leave it, this
is also necessary. -/
theorem endsInTime_iff_rearmsLater (h : Run.exec timerStep init calls = some s) :
    (s.RearmsLater thread now → s.EndsInTime thread now) ∧
      (s.Ordered → (s.EndsInTime thread now ↔ s.RearmsLater thread now)) := by
  have hm := members_of_exec h
  refine ⟨hm.endsInTime, fun ho => ⟨fun hends => ?_, hm.endsInTime⟩⟩
  by_contra hnot
  exact (stuck_of_not_rearmsLater hnot).not_endsInTime hm ho hends

/-- The two timers at 7 and 5 ms. -/
theorem endsInTime_twoTimers :
    ∃ s, Run.exec timerStep init twoTimers = some s ∧ s.EndsInTime 0 10 := by
  obtain ⟨s, hs⟩ : ∃ s, Run.exec timerStep init twoTimers = some s := ⟨_, rfl⟩
  refine ⟨s, hs, (endsInTime_iff_rearmsLater hs).1 ?_⟩
  obtain rfl := Option.some.inj hs
  rintro timer t - ht -
  simp only [arm, nosTimerCreate, init, Function.update_apply] at ht
  split_ifs at ht
  all_goals
    rw [← Option.some.inj ht]
    decide

/-- A periodic timer without an interval is due again as soon as it has fired. -/
theorem not_endsInTime_zero_interval :
    ∃ s, Run.exec timerStep init [.create 1 (some 7) 0 none, .start (some 0) 1 0 0 true] = some s ∧
      ¬ s.EndsInTime 0 0 := by
  obtain ⟨s, hs, hstuck⟩ : ∃ s, Run.exec timerStep init
      [.create 1 (some 7) 0 none, .start (some 0) 1 0 0 true] = some s ∧ s.Stuck 0 0 :=
    ⟨_, rfl, 1, _, ⟨⟨0, by decide, rfl⟩, by decide⟩, rfl, rfl, by decide⟩
  have hordered : s.Members ∧ s.Ordered := by
    refine members_and_ordered_of_starts ?_ hs
    simp [TimerCall.Starts]
  exact ⟨s, hs, hstuck.not_endsInTime hordered.1 hordered.2⟩

end TimerSystem

end GeminiNOS

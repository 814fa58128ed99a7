import GeminiNOS.Scheduler.Timer

/-! # Order of the timer heaps

Starting, firing and re-arming timers keep every heap ordered by expiry. A stop
or a deletion keeps it exactly if the last node, which takes the place of the
removed one, does not expire before the parent of that place.
-/

namespace GeminiNOS

open Foundations ArrayHeap

namespace TimerSystem

variable {s s' : TimerSystem} {thread : ThreadId} {timer : TimerId} {t : NosTimer} {i : ℕ}

/-- Every heap array is a min-heap on the expiry of its timers. -/
def Ordered (s : TimerSystem) : Prop :=
  ∀ thread, IsHeap (expireAt s.timers) (s.heaps thread).nodes (s.heaps thread).size

/-- No running timer of a thread expires before the root of its heap. -/
def EarliestRoot (s : TimerSystem) : Prop :=
  ∀ thread timer t, s.timers timer = some t → t.isRunning = true → t.ownerThread = some thread →
    0 < (s.heaps thread).size ∧ expireAt s.timers (s.root thread) ≤ t.expireAtMs

/-- The heap arrays are min-heaps, and so each root is the earliest running timer. -/
def TimerOrder (s : TimerSystem) : Prop := s.Ordered ∧ s.EarliestRoot

/-- Taking the timer out of its heap leaves a place which the last node fits: the parent of the
place expires no later. -/
def LastFits (s : TimerSystem) (timer : TimerId) : Prop :=
  ∀ thread i, s.RunningOn thread timer → (s.heaps thread).findNode timer = some i →
    FitsBelowParent (expireAt s.timers) (s.heaps thread).nodes ((s.heaps thread).size - 1) i

def RemovalFits (s : TimerSystem) : TimerCall → Prop
  | .stop _ timer => s.LastFits timer
  | .delete timer => s.LastFits timer
  | _ => True

theorem expireAt_some (h : s.timers timer = some t) : expireAt s.timers timer = t.expireAtMs := by
  simp [expireAt, h]

theorem expireAt_update_of_ne {timers : TimerId → Option NosTimer} {x : Option NosTimer}
    {timer' : TimerId} (h : timer' ≠ timer) :
    expireAt (Function.update timers timer x) timer' = expireAt timers timer' := by
  simp [expireAt, Function.update_of_ne h]

theorem Members.earliestRoot (h : s.Members) (ho : s.Ordered) : s.EarliestRoot := by
  intro thread timer t ht hr hown
  obtain ⟨k, hk, he⟩ := (h.mem_iff thread timer).mpr ⟨t, ht, hr, hown⟩
  refine ⟨Nat.zero_lt_of_lt hk, ?_⟩
  rw [← expireAt_some ht, ← he]
  exact (ho thread).root_le hk

theorem Members.timerOrder_iff (h : s.Members) : s.TimerOrder ↔ s.Ordered :=
  ⟨And.left, fun ho => ⟨ho, h.earliestRoot ho⟩⟩

theorem ordered_init : init.Ordered := by
  intro thread i _ hi
  simp [init] at hi

theorem Ordered.store (ho : s.Ordered) (hn : ∀ thread, ¬ s.InHeap thread timer)
    (x : Option NosTimer) :
    Ordered { s with timers := Function.update s.timers timer x } := fun thread =>
  (ho thread).congr fun i hi => expireAt_update_of_ne fun he => hn thread ⟨i, hi, he⟩

theorem Ordered.arm (ho : s.Ordered) (hn : ∀ thread, ¬ s.InHeap thread timer) :
    (s.arm thread timer t).Ordered := by
  have hstore := ho.store hn (some t)
  intro thread'
  by_cases he : thread' = thread
  · subst he
    simp only [TimerSystem.arm, Function.update_self, NosTimerHeap.push]
    exact (hstore thread').insertLast
  · simpa [TimerSystem.arm, Function.update_of_ne he] using hstore thread'

theorem ordered_disarm_iff (h : s.Members) (hi : i < (s.heaps thread).size)
    (hn : (s.heaps thread).nodes i = timer) {x : Option NosTimer}
    (hx : ∀ t, x = some t → t.isRunning = false) :
    (s.disarm thread i timer x).Ordered ↔ ∀ thread',
      IsHeap (expireAt s.timers) ((s.disarm thread i timer x).heaps thread').nodes
        ((s.disarm thread i timer x).heaps thread').size := by
  have hnot : ∀ thread' k, k < ((s.disarm thread i timer x).heaps thread').size →
      ((s.disarm thread i timer x).heaps thread').nodes k ≠ timer := by
    intro thread' k hk he
    obtain ⟨t, ht, hr, -⟩ := ((h.disarm hi hn hx).mem_iff thread' timer).mp ⟨k, hk, he⟩
    simp only [disarm, Function.update_self] at ht
    simp [hx t ht] at hr
  exact forall_congr' fun thread' =>
    ⟨fun hh => hh.congr fun k hk => (expireAt_update_of_ne (hnot thread' k hk)).symm,
      fun hh => hh.congr fun k hk => expireAt_update_of_ne (hnot thread' k hk)⟩

theorem Ordered.disarm_iff (ho : s.Ordered) (h : s.Members) (hi : i < (s.heaps thread).size)
    (hn : (s.heaps thread).nodes i = timer) {x : Option NosTimer}
    (hx : ∀ t, x = some t → t.isRunning = false) :
    (s.disarm thread i timer x).Ordered ↔
      FitsBelowParent (expireAt s.timers) (s.heaps thread).nodes ((s.heaps thread).size - 1) i := by
  have hheap := ho thread
  rw [← size_disarm_add_one hi] at hheap
  rw [ordered_disarm_iff h hi hn hx, ← hheap.removeAt_iff (by omega)]
  constructor
  · intro hall
    simpa [TimerSystem.disarm, NosTimerHeap.removeNode] using hall thread
  · intro hrem thread'
    by_cases he : thread' = thread
    · subst he
      simpa [TimerSystem.disarm, NosTimerHeap.removeNode] using hrem
    · simpa [TimerSystem.disarm, Function.update_of_ne he] using ho thread'

theorem Ordered.popRoot (ho : s.Ordered) (h : s.Members) (hsize : 0 < (s.heaps thread).size)
    (t : NosTimer) : (s.popRoot thread t).Ordered :=
  (ho.disarm_iff h hsize rfl fun _ he => by rw [← Option.some.inj he]).mpr
    fun h0 => absurd h0 (Nat.lt_irrefl 0)

theorem Ordered.fires (ho : s.Ordered) (h : s.Members) (hf : Fires s thread s') : s'.Ordered := by
  cases hf with
  | oneShot hsize ht => exact ho.popRoot h hsize _
  | @periodic t hsize ht later =>
    refine (ho.popRoot h hsize t).arm ((h.popRoot hsize t).not_inHeap fun t' ht' => ?_)
    rw [popRoot_root] at ht'
    rw [← Option.some.inj ht']

theorem Ordered.process (ho : s.Ordered) (h : s.Members) {clock : List ℕ}
    {r : TimerSystem × List TimerId × List ℕ} (hr : s.processTimers thread clock = some r) :
    r.1.Ordered :=
  (processTimers_invariant (I := fun s => s.Members ∧ s.Ordered)
    (fun _ _ hs hf => ⟨hs.1.fires hf, hs.2.fires hs.1 hf⟩) ⟨h, ho⟩ hr).2

theorem lastFits_of_idle (h : ∀ t, s.timers timer = some t → t.isRunning = false) :
    s.LastFits timer := by
  rintro thread i ⟨t, ht, hr, -⟩
  simp [h t ht] at hr

theorem Ordered.disarm_iff_lastFits (ho : s.Ordered) (h : s.Members)
    (ht : s.timers timer = some t) (hr : t.isRunning = true) (hown : t.ownerThread = some thread)
    (hi : (s.heaps thread).findNode timer = some i) {x : Option NosTimer}
    (hx : ∀ t, x = some t → t.isRunning = false) :
    (s.disarm thread i timer x).Ordered ↔ s.LastFits timer := by
  obtain ⟨hlt, hn⟩ := NosTimerHeap.findNode_some hi
  rw [ho.disarm_iff h hlt hn hx]
  constructor
  · rintro hfit thread' i' ⟨t', ht', -, hown'⟩ hi'
    rw [ht] at ht'
    obtain rfl := Option.some.inj ht'
    rw [hown] at hown'
    obtain rfl := Option.some.inj hown'
    rw [hi] at hi'
    obtain rfl := Option.some.inj hi'
    exact hfit
  · exact fun hall => hall thread i ⟨t, ht, hr, hown⟩ hi

/-- One call leaves the heaps ordered exactly if no removal misfits. -/
theorem Ordered.step_iff {call : TimerCall} (ho : s.Ordered) (h : s.Members)
    (hstep : timerStep s call = some s') : s'.Ordered ↔ s.RemovalFits call := by
  cases call with
  | create timer callback arg freeArg =>
    simp only [timerStep, Option.ite_none_right_eq_some, Option.some.injEq] at hstep
    obtain ⟨⟨-, hn⟩, rfl⟩ := hstep
    exact iff_of_true (ho.store (h.not_inHeap fun t ht => by simp [hn] at ht) _) trivial
  | start thread timer now intervalMs isPeriodic =>
    obtain ⟨r, hr, rfl⟩ := Option.map_eq_some_iff.mp hstep
    rcases nosTimerStart_some hr with rfl | ⟨thread', t, -, -, ht, hrun, -, rfl⟩
    · exact iff_of_true ho trivial
    · refine iff_of_true (ho.arm (h.not_inHeap fun t' ht' => ?_)) trivial
      rw [ht] at ht'
      rw [← Option.some.inj ht', hrun]
  | stop thread timer =>
    obtain ⟨r, hr, rfl⟩ := Option.map_eq_some_iff.mp hstep
    rcases h.nosTimerStop_some hr with ⟨rfl, hidle⟩ | ⟨thread', t, i, ht, hrun, hown, hi, rfl⟩
    · exact iff_of_true ho (lastFits_of_idle hidle)
    · exact ho.disarm_iff_lastFits h ht hrun hown hi fun t' he => by rw [← Option.some.inj he]
  | delete timer =>
    rcases h.nosTimerDelete_some hstep with
      ⟨rfl, hidle⟩ | ⟨h0, hidle, rfl⟩ | ⟨thread', t, i, ht, hrun, hown, hi, rfl⟩
    · exact iff_of_true ho (lastFits_of_idle hidle)
    · exact iff_of_true (ho.store (h.not_inHeap hidle) _) (lastFits_of_idle hidle)
    · exact ho.disarm_iff_lastFits h ht hrun hown hi fun t' he => by cases he
  | process thread clock =>
    obtain ⟨r, hr, rfl⟩ := Option.map_eq_some_iff.mp hstep
    exact iff_of_true (ho.process h hr) trivial

/-- Along a run of timer calls, the heaps stay ordered in every state reached if and only if no
stop and no deletion puts a node below a parent that expires later. -/
theorem timerOrder_iff_removalFits (calls : List TimerCall) :
    Run.Always timerStep TimerOrder init calls ↔
      Run.Guarded timerStep RemovalFits init calls := by
  apply Run.always_iff_guarded (I := fun s => s.Members ∧ s.Ordered)
  · exact fun s h => h.1.timerOrder_iff.mpr h.2
  · exact fun s call s' h hstep ho => ⟨h.1.step hstep, ho.1⟩
  · exact fun s call s' h hstep =>
      (h.1.step hstep).timerOrder_iff.trans (h.2.step_iff h.1 hstep)
  · exact ⟨members_init, ordered_init⟩

/-- Create a timer and start it at clock reading 0. -/
def createAndStart (timer intervalMs : ℕ) : List TimerCall :=
  [.create timer (some 1) 0 none, .start (some 0) timer 0 intervalMs false]

/-- With timers at 1, 10, 2, 11, 12, 3 and 4 ms, stopping the one at 11 ms puts the one at 4 ms
below the one at 10 ms. -/
theorem misordered_after_stop :
    ∃ s, Run.exec timerStep init
        (createAndStart 1 1 ++ createAndStart 2 10 ++ createAndStart 3 2 ++ createAndStart 4 11 ++
          createAndStart 5 12 ++ createAndStart 6 3 ++ createAndStart 7 4 ++ [.stop (some 0) 4]) =
        some s ∧
      (s.heaps 0).size = 6 ∧
      expireAt s.timers ((s.heaps 0).nodes 1) = 10 ∧
      expireAt s.timers ((s.heaps 0).nodes 3) = 4 ∧
      ¬ s.TimerOrder := by
  refine ⟨_, rfl, by decide, by decide, by decide, fun h => ?_⟩
  exact absurd (h.1 0 3 (by decide) (by decide)) (by decide)

end TimerSystem

end GeminiNOS

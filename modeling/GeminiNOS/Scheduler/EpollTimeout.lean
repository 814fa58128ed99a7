import GeminiNOS.Scheduler.TimerCallbacks
import GeminiNOS.Scheduler.TimerOrder

/-! # The timeout of `epoll_wait`

Before it sleeps, the loop of a thread derives a timeout from the root of its timer heap. The
distance to the root is a 64-bit number that is passed as an `int`. As long as the root is the
earliest running timer, the loop wakes in time exactly if this conversion keeps the sign.
-/

namespace GeminiNOS

open Foundations ArrayHeap

namespace TimerSystem

/-- The timeout that `nos_scheduler_run_loop` passes to `epoll_wait` at clock reading `now`. -/
def epollTimeout (s : TimerSystem) (thread : ThreadId) (now : ℕ) : ℤ :=
  if 0 < (s.heaps thread).size then
    if expireAt s.timers (s.root thread) ≤ now then 0
    else int32 (expireAt s.timers (s.root thread) - now)
  else -1

/-- The loop sleeps without end only if no timer of the thread is running, and otherwise not past
the expiry of any. -/
structure NeverOversleeps (s : TimerSystem) (thread : ThreadId) (now : ℕ) : Prop where
  forever : s.epollTimeout thread now < 0 → ∀ timer, ¬ s.RunningOn thread timer
  le_expiry : ∀ timer t, s.timers timer = some t → t.isRunning = true →
    t.ownerThread = some thread → s.epollTimeout thread now ≤ (t.expireAtMs - now : ℕ)

/-- The time until the root expires, as the low 32 bits of it say, is a nonnegative `int`. -/
def WaitFits (s : TimerSystem) (thread : ThreadId) (now : ℕ) : Prop :=
  0 < (s.heaps thread).size → now < expireAt s.timers (s.root thread) →
    (expireAt s.timers (s.root thread) - now) % 2 ^ 32 < 2 ^ 31

variable {s : TimerSystem} {thread : ThreadId} {timer : TimerId} {now : ℕ}

theorem epollTimeout_of_due (hsize : 0 < (s.heaps thread).size)
    (hle : expireAt s.timers (s.root thread) ≤ now) : s.epollTimeout thread now = 0 := by
  rw [epollTimeout, if_pos hsize, if_pos hle]

theorem epollTimeout_of_lt (hsize : 0 < (s.heaps thread).size)
    (hlt : now < expireAt s.timers (s.root thread)) :
    s.epollTimeout thread now = int32 (expireAt s.timers (s.root thread) - now) := by
  rw [epollTimeout, if_pos hsize, if_neg (Nat.not_le.mpr hlt)]

theorem Members.runningOn_root (hm : s.Members) (hsize : 0 < (s.heaps thread).size) :
    s.RunningOn thread (s.root thread) :=
  (hm.mem_iff thread _).mp ⟨0, hsize, rfl⟩

theorem Members.size_pos (hm : s.Members) (h : s.RunningOn thread timer) :
    0 < (s.heaps thread).size := by
  obtain ⟨k, hk, -⟩ := (hm.mem_iff thread timer).mpr h
  exact Nat.zero_lt_of_lt hk

/-- On an ordered heap the loop wakes in time exactly if the conversion of the wait fits. -/
theorem Members.neverOversleeps_iff (hm : s.Members) (ho : s.Ordered) :
    s.NeverOversleeps thread now ↔ s.WaitFits thread now := by
  constructor
  · intro h hsize hlt
    by_contra hwrap
    apply h.forever _ _ (hm.runningOn_root hsize)
    rw [epollTimeout_of_lt hsize hlt]
    exact int32_neg hwrap
  · intro h
    have hwait : 0 < (s.heaps thread).size → 0 ≤ s.epollTimeout thread now ∧
        s.epollTimeout thread now ≤ (expireAt s.timers (s.root thread) - now : ℕ) := by
      intro hsize
      rcases Nat.lt_or_ge now (expireAt s.timers (s.root thread)) with hlt | hle
      · have hmod := Nat.mod_le (expireAt s.timers (s.root thread) - now) (2 ^ 32)
        rw [epollTimeout_of_lt hsize hlt, int32_of_lt (h hsize hlt)]
        omega
      · rw [epollTimeout_of_due hsize hle]
        omega
    constructor
    · intro hneg timer hrun
      have hnonneg := (hwait (hm.size_pos hrun)).1
      omega
    · intro timer t ht hr hown
      obtain ⟨hsize, hroot⟩ := hm.earliestRoot ho thread timer t ht hr hown
      have hle := (hwait hsize).2
      omega

end TimerSystem

namespace TimerRun

/-- The condition on a step: the callbacks fit, and a stop or a deletion fits the last node into
the place that it frees. -/
def HeapKept (s : TimerRun) (a : TimerAction) : Prop :=
  s.CallbackFits a ∧ ∀ c, a = .call c → s.system.RemovalFits c

/-- The heaps hold exactly the running timers and are ordered. -/
structure OrderedSound (s : TimerRun) : Prop where
  sound : s.Sound
  ordered : s.system.Ordered

variable {s s' : TimerRun} {a : TimerAction} {actions : List TimerAction}

theorem OrderedSound.ret (h : s.OrderedSound) {later now : ℕ}
    (hfits : s.CallbackFits (.ret later now)) (hs : s.step (.ret later now) = some s') :
    s'.system.Ordered := by
  simp only [step] at hs
  split at hs
  · rename_i thread timer callback hmode
    obtain ⟨t, ht, rfl⟩ := Option.map_eq_some_iff.mp hs
    dsimp only
    split
    · rename_i hperiodic
      obtain ⟨hrun, -⟩ := hfits thread timer callback t hmode ht hperiodic
      refine h.ordered.arm (h.sound.members.not_inHeap fun t' ht' => ?_)
      rw [ht] at ht'
      rw [← Option.some.inj ht', hrun]
    · exact h.ordered
  · cases hs

theorem OrderedSound.step (h : s.OrderedSound) (hkept : s.HeapKept a)
    (hs : s.step a = some s') : s'.OrderedSound := by
  refine ⟨h.sound.step hkept.1 hs, ?_⟩
  cases a with
  | call c =>
    simp only [TimerRun.step] at hs
    split at hs
    · obtain ⟨system, hstep, rfl⟩ := Option.map_eq_some_iff.mp hs
      exact (h.ordered.step_iff h.sound.members hstep).mpr (hkept.2 c rfl)
    · cases hs
  | process thread now =>
    simp only [TimerRun.step] at hs
    split at hs
    · obtain rfl := Option.some.inj hs
      exact h.ordered
    · cases hs
  | round =>
    simp only [TimerRun.step] at hs
    split at hs
    · split at hs
      · rename_i thread now hmode hdue
        obtain ⟨t, ht, rfl⟩ := Option.map_eq_some_iff.mp hs
        exact h.ordered.popRoot h.sound.members hdue.1 t
      · obtain rfl := Option.some.inj hs
        exact h.ordered
    · cases hs
  | ret later now => exact h.ret hkept.1 hs

theorem orderedSound_init : init.OrderedSound := ⟨sound_init, TimerSystem.ordered_init⟩

/-- Along a run whose steps keep the heaps, in every state, for every thread and clock reading,
the loop wakes in time if and only if the wait fits into the `int` that it is passed as. -/
theorem always_neverOversleeps_iff (h : Run.Guarded step HeapKept init actions) :
    Run.Always step (fun s => ∀ thread now,
      s.system.NeverOversleeps thread now ↔ s.system.WaitFits thread now) init actions :=
  Run.always_of_guarded (fun _ _ _ hi hkept hs => hi.step hkept hs)
    (fun _ hi _ _ => hi.sound.members.neverOversleeps_iff hi.ordered) orderedSound_init h

/-- A periodic timer fires, and its callback stops another one. -/
theorem always_neverOversleeps_iff_stop_other :
    Run.Always step (fun s => ∀ thread now,
      s.system.NeverOversleeps thread now ↔ s.system.WaitFits thread now) init
      [.call (.create 1 (some 7) 0 none), .call (.create 2 (some 8) 0 none),
        .call (.start (some 0) 1 0 5 true), .call (.start (some 0) 2 0 9 false), .process 0 5,
        .round, .call (.stop (some 0) 2), .ret 5 5] := by
  apply always_neverOversleeps_iff
  iterate 4 refine .cons rfl ⟨trivial, by rintro _ ⟨⟩; trivial⟩ ?_
  iterate 2 refine .cons rfl ⟨trivial, by rintro _ ⟨⟩⟩ ?_
  refine .cons rfl ⟨trivial, ?_⟩ (.cons rfl ⟨?_, by rintro _ ⟨⟩⟩ trivial)
  · rintro _ ⟨⟩ (_ | thread) i - - h0 hlt
    · exact absurd hlt (Nat.not_lt_zero i)
    · exact absurd hlt (Nat.not_lt_zero i)
  · rintro _ _ _ _ ⟨⟩ ⟨⟩ -
    exact ⟨rfl, rfl, by decide⟩

/-- A timer of three billion milliseconds makes the loop sleep without end. -/
theorem not_neverOversleeps_long_interval :
    ∃ s, Run.exec step init [.call (.create 1 (some 7) 0 none),
        .call (.start (some 0) 1 0 3000000000 false)] = some s ∧
      s.system.epollTimeout 0 0 = -1294967296 ∧ ¬ s.system.NeverOversleeps 0 0 := by
  refine ⟨_, rfl, by decide, fun h => ?_⟩
  exact h.forever (by decide) 1 ⟨_, rfl, rfl, rfl⟩

end TimerRun

end GeminiNOS

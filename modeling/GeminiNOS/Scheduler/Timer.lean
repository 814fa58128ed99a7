import GeminiNOS.Basic
import GeminiNOS.Foundations.ArrayHeap
import GeminiNOS.Foundations.Run

/-! # Timers of the scheduler threads

Timer objects live in a store and are referenced from the heap array of the
thread they were started on. A timer is running exactly if it stands in the heap
of its owner thread, once; every call on timers keeps this.
-/

namespace GeminiNOS

open Foundations ArrayHeap

/-- A timer handle; the null handle is `0`. -/
abbrev TimerId := ℕ

abbrev ThreadId := ℕ

/-- The timer object `nos_timer_s`. -/
structure NosTimer where
  expireAtMs : ℕ
  intervalMs : ℕ
  isPeriodic : Bool
  callback : Option ℕ
  freeArg : Option ℕ
  arg : ℕ
  isRunning : Bool
  ownerThread : Option ThreadId
  deriving DecidableEq, Repr

/-- The array `nos_timer_heap_t` of one thread. -/
structure NosTimerHeap where
  nodes : ℕ → TimerId
  size : ℕ
  capacity : ℕ

/-- The allocated timers and the heap of every thread. -/
structure TimerSystem where
  timers : TimerId → Option NosTimer
  heaps : ThreadId → NosTimerHeap

def expireAt (timers : TimerId → Option NosTimer) (timer : TimerId) : ℕ :=
  match timers timer with
  | some t => t.expireAtMs
  | none => 0

/-- `nodes[size] = timer; heapify_up(size++)` -/
def NosTimerHeap.push (heap : NosTimerHeap) (timers : TimerId → Option NosTimer)
    (timer : TimerId) : NosTimerHeap :=
  { heap with
    nodes := insertLast (expireAt timers) heap.nodes heap.size timer
    size := heap.size + 1 }

/-- `nodes[i] = nodes[--size]; heapify_down(i)` -/
def NosTimerHeap.removeNode (heap : NosTimerHeap) (timers : TimerId → Option NosTimer)
    (i : ℕ) : NosTimerHeap :=
  { heap with
    nodes := removeAt (expireAt timers) heap.nodes (heap.size - 1) i
    size := heap.size - 1 }

def NosTimerHeap.findNode (heap : NosTimerHeap) (timer : TimerId) : Option ℕ :=
  (List.range heap.size).find? fun i => heap.nodes i = timer

namespace TimerSystem

/-- Every thread with the empty heap of `nos_scheduler_init_thread`, and no timer. -/
def init : TimerSystem where
  timers := fun _ => none
  heaps := fun _ => ⟨fun _ => 0, 0, 128⟩

/-- Store a running timer and put it into the heap of a thread. -/
def arm (s : TimerSystem) (thread : ThreadId) (timer : TimerId) (t : NosTimer) : TimerSystem :=
  let timers := Function.update s.timers timer (some t)
  { timers := timers
    heaps := Function.update s.heaps thread ((s.heaps thread).push timers timer) }

/-- Take the node at an index out of a heap, and store what becomes of its timer. -/
def disarm (s : TimerSystem) (thread : ThreadId) (i : ℕ) (timer : TimerId)
    (x : Option NosTimer) : TimerSystem where
  timers := Function.update s.timers timer x
  heaps := Function.update s.heaps thread ((s.heaps thread).removeNode s.timers i)

/-- `nos_timer_create`, on an address that the allocator returns. -/
def nosTimerCreate (s : TimerSystem) (timer : TimerId) (callback : Option ℕ) (arg : ℕ)
    (freeArg : Option ℕ) : TimerSystem :=
  { s with
    timers := Function.update s.timers timer
      (some ⟨0, 0, false, callback, freeArg, arg, false, none⟩) }

/-- `nos_timer_start` for a component on `thread`, at clock reading `now`. The call is undefined
on a handle that was freed. -/
def nosTimerStart (s : TimerSystem) (thread : Option ThreadId) (timer : TimerId)
    (now intervalMs : ℕ) (isPeriodic : Bool) : Option (NosStatus × TimerSystem) :=
  match thread with
  | none => some (.err, s)
  | some thread =>
    if timer = 0 then some (.err, s) else
      match s.timers timer with
      | none => none
      | some t =>
        if t.isRunning ∨ (s.heaps thread).capacity ≤ (s.heaps thread).size then some (.err, s)
        else some (.ok, s.arm thread timer { t with
          intervalMs := intervalMs
          expireAtMs := u64 (now + intervalMs)
          isPeriodic := isPeriodic
          isRunning := true
          ownerThread := some thread })

/-- `nos_timer_stop` for a component on `thread`. The owner of the timer goes before it. -/
def nosTimerStop (s : TimerSystem) (thread : Option ThreadId) (timer : TimerId) :
    Option (NosStatus × TimerSystem) :=
  match s.timers timer with
  | none => none
  | some t =>
    match t.ownerThread.or thread with
    | none => some (.err, s)
    | some thread =>
      if t.isRunning then
        match (s.heaps thread).findNode timer with
        | none => some (.err, s)
        | some i => some (.ok, s.disarm thread i timer (some { t with isRunning := false }))
      else some (.err, s)

/-- `nos_timer_delete` -/
def nosTimerDelete (s : TimerSystem) (timer : TimerId) : Option TimerSystem :=
  if timer = 0 then some s else
    match s.timers timer with
    | none => none
    | some t =>
      match (if t.isRunning then t.ownerThread else none) with
      | none => some { s with timers := Function.update s.timers timer none }
      | some thread =>
        match (s.heaps thread).findNode timer with
        | none => some { s with timers := Function.update s.timers timer none }
        | some i => some (s.disarm thread i timer none)

/-- `nodes[0]` of the heap of a thread. -/
def root (s : TimerSystem) (thread : ThreadId) : TimerId := (s.heaps thread).nodes 0

/-- The head of the loop in `process_timers`: a root that is due. -/
def Due (s : TimerSystem) (thread : ThreadId) (now : ℕ) : Prop :=
  0 < (s.heaps thread).size ∧ expireAt s.timers (s.root thread) ≤ now

instance (s : TimerSystem) (thread : ThreadId) (now : ℕ) : Decidable (s.Due thread now) :=
  inferInstanceAs (Decidable (_ ∧ _))

def popRoot (s : TimerSystem) (thread : ThreadId) (t : NosTimer) : TimerSystem :=
  s.disarm thread 0 (s.root thread) (some { t with isRunning := false })

/-- Put a periodic timer back after its callback, at clock reading `now`. -/
def rearm (s : TimerSystem) (thread : ThreadId) (timer : TimerId) (t : NosTimer) (now : ℕ) :
    TimerSystem :=
  s.arm thread timer { t with expireAtMs := u64 (now + t.intervalMs), isRunning := true }

/-- The loop of `process_timers` with callbacks that do not touch timers, on the values that the
clock returns from now on. It yields the timers fired and the clock values left. -/
def processTimersLoop (thread : ThreadId) :
    TimerSystem → ℕ → List ℕ → Option (TimerSystem × List TimerId × List ℕ)
  | s, now, clock =>
    if s.Due thread now then
      match s.timers (s.root thread) with
      | none => none
      | some t =>
        match t.isPeriodic, clock with
        | false, now :: clock =>
          (processTimersLoop thread (s.popRoot thread t) now clock).map
            fun r => (r.1, s.root thread :: r.2.1, r.2.2)
        | true, later :: now :: clock =>
          (processTimersLoop thread ((s.popRoot thread t).rearm thread (s.root thread) t later)
            now clock).map fun r => (r.1, s.root thread :: r.2.1, r.2.2)
        | _, _ => none
    else some (s, [], clock)

/-- `process_timers`, for a clock that returns these values until the call ends. -/
def processTimers (s : TimerSystem) (thread : ThreadId) :
    List ℕ → Option (TimerSystem × List TimerId × List ℕ)
  | [] => none
  | now :: clock => processTimersLoop thread s now clock

end TimerSystem

/-- Calls on timers, made one after another. -/
inductive TimerCall where
  | create (timer : TimerId) (callback : Option ℕ) (arg : ℕ) (freeArg : Option ℕ)
  | start (thread : Option ThreadId) (timer : TimerId) (now intervalMs : ℕ) (isPeriodic : Bool)
  | stop (thread : Option ThreadId) (timer : TimerId)
  | delete (timer : TimerId)
  | process (thread : ThreadId) (clock : List ℕ)
  deriving DecidableEq, Repr

open TimerSystem in
/-- One call. The allocator returns unused addresses; calls on freed handles are undefined. -/
def timerStep (s : TimerSystem) : TimerCall → Option TimerSystem
  | .create timer callback arg freeArg =>
    if timer ≠ 0 ∧ s.timers timer = none then some (s.nosTimerCreate timer callback arg freeArg)
    else none
  | .start thread timer now intervalMs isPeriodic =>
    (s.nosTimerStart thread timer now intervalMs isPeriodic).map Prod.snd
  | .stop thread timer => (s.nosTimerStop thread timer).map Prod.snd
  | .delete timer => s.nosTimerDelete timer
  | .process thread clock => (s.processTimers thread clock).map Prod.fst

theorem NosTimerHeap.findNode_some {heap : NosTimerHeap} {timer : TimerId} {i : ℕ}
    (h : heap.findNode timer = some i) : i < heap.size ∧ heap.nodes i = timer := by
  refine ⟨?_, by simpa using List.find?_some h⟩
  simpa using List.mem_of_find?_eq_some h

theorem NosTimerHeap.findNode_none {heap : NosTimerHeap} {timer : TimerId}
    (h : heap.findNode timer = none) : ∀ k < heap.size, heap.nodes k ≠ timer := by
  intro k hk
  simpa using List.find?_eq_none.mp h k (by simpa using hk)

namespace TimerSystem

variable {s s' : TimerSystem} {thread : ThreadId} {timer : TimerId} {t : NosTimer} {i now : ℕ}

def InHeap (s : TimerSystem) (thread : ThreadId) (timer : TimerId) : Prop :=
  ∃ k < (s.heaps thread).size, (s.heaps thread).nodes k = timer

/-- The timer exists, is marked running and has the thread as its owner. -/
def RunningOn (s : TimerSystem) (thread : ThreadId) (timer : TimerId) : Prop :=
  ∃ t, s.timers timer = some t ∧ t.isRunning = true ∧ t.ownerThread = some thread

/-- The heaps hold exactly the running timers, each once and on its owner thread. -/
structure Members (s : TimerSystem) : Prop where
  null : s.timers 0 = none
  owned : ∀ timer t, s.timers timer = some t → t.isRunning = true → t.ownerThread ≠ none
  inj : ∀ thread, Set.InjOn (s.heaps thread).nodes (Set.Iio (s.heaps thread).size)
  mem_iff : ∀ thread timer, s.InHeap thread timer ↔ s.RunningOn thread timer

theorem members_init : init.Members where
  null := rfl
  owned _ _ h := by simp [init] at h
  inj _ := by simp [init, Set.InjOn]
  mem_iff _ _ := by simp [init, InHeap, RunningOn]

theorem runningOn_update_of_ne {timer' : TimerId} (h : timer' ≠ timer) {x : Option NosTimer}
    {heaps : ThreadId → NosTimerHeap} :
    RunningOn ⟨Function.update s.timers timer x, heaps⟩ thread timer' ↔
      s.RunningOn thread timer' := by
  simp [RunningOn, Function.update_of_ne h]

theorem not_runningOn_update {x : Option NosTimer} (hx : ∀ t, x = some t → t.isRunning = false)
    {heaps : ThreadId → NosTimerHeap} :
    ¬ RunningOn ⟨Function.update s.timers timer x, heaps⟩ thread timer := by
  rintro ⟨t, ht, hr, -⟩
  simp only [Function.update_self] at ht
  simp [hx t ht] at hr

theorem Members.not_inHeap (h : s.Members) (hx : ∀ t, s.timers timer = some t → t.isRunning = false)
    (thread : ThreadId) : ¬ s.InHeap thread timer := by
  rw [h.mem_iff]
  rintro ⟨t, ht, hr, -⟩
  simp [hx t ht] at hr

theorem Members.store (h : s.Members) (h0 : timer ≠ 0) {x : Option NosTimer}
    (hx : ∀ t, x = some t → t.isRunning = false)
    (hold : ∀ t, s.timers timer = some t → t.isRunning = false) :
    Members { s with timers := Function.update s.timers timer x } where
  null := by simp [Function.update_of_ne h0.symm, h.null]
  owned timer' t ht hr := by
    by_cases he : timer' = timer
    · subst he
      simp only [Function.update_self] at ht
      simp [hx t ht] at hr
    · exact h.owned timer' t (by simpa [Function.update_of_ne he] using ht) hr
  inj := h.inj
  mem_iff thread timer' := by
    by_cases he : timer' = timer
    · subst he
      exact iff_of_false (h.not_inHeap hold thread) (not_runningOn_update hx)
    · exact (h.mem_iff thread timer').trans (runningOn_update_of_ne he).symm

theorem inHeap_arm {thread' : ThreadId} {timer' : TimerId} :
    (s.arm thread timer t).InHeap thread' timer' ↔
      (thread' = thread ∧ timer' = timer) ∨ s.InHeap thread' timer' := by
  by_cases he : thread' = thread
  · subst he
    simp only [InHeap, arm, Function.update_self, NosTimerHeap.push, true_and]
    rw [exists_insertLast_iff (p := (· = timer')), eq_comm]
  · simp [InHeap, arm, he]

theorem Members.arm (h : s.Members) (h0 : timer ≠ 0)
    (hold : ∀ t, s.timers timer = some t → t.isRunning = false) (hr : t.isRunning = true)
    (ho : t.ownerThread = some thread) : (s.arm thread timer t).Members where
  null := by simp [TimerSystem.arm, Function.update_of_ne h0.symm, h.null]
  owned timer' t' ht hr' := by
    by_cases he : timer' = timer
    · subst he
      simp only [TimerSystem.arm, Function.update_self, Option.some.injEq] at ht
      simp [← ht, ho]
    · exact h.owned timer' t' (by simpa [TimerSystem.arm, Function.update_of_ne he] using ht) hr'
  inj thread' := by
    by_cases he : thread' = thread
    · subst he
      simp only [TimerSystem.arm, Function.update_self, NosTimerHeap.push]
      exact injOn_insertLast (h.inj thread') fun k hk hn => h.not_inHeap hold thread' ⟨k, hk, hn⟩
    · simpa [TimerSystem.arm, Function.update_of_ne he] using h.inj thread'
  mem_iff thread' timer' := by
    rw [inHeap_arm]
    by_cases he : timer' = timer
    · subst he
      constructor
      · rintro (⟨rfl, -⟩ | hin)
        · exact ⟨t, by simp [TimerSystem.arm], hr, ho⟩
        · exact absurd hin (h.not_inHeap hold thread')
      · rintro ⟨t', ht, -, ho'⟩
        simp only [TimerSystem.arm, Function.update_self, Option.some.injEq] at ht
        exact Or.inl ⟨by rw [← ht, ho] at ho'; exact (Option.some.inj ho').symm, rfl⟩
    · simp only [he, and_false, false_or]
      exact (h.mem_iff thread' timer').trans (runningOn_update_of_ne he).symm

theorem size_disarm_add_one (hi : i < (s.heaps thread).size) :
    (s.heaps thread).size - 1 + 1 = (s.heaps thread).size := by omega

theorem inHeap_disarm (h : s.Members) (hi : i < (s.heaps thread).size) {x : Option NosTimer}
    {thread' : ThreadId} {timer' : TimerId} :
    (s.disarm thread i timer x).InHeap thread' timer' ↔
      (thread' = thread → timer' ≠ (s.heaps thread).nodes i) ∧ s.InHeap thread' timer' := by
  by_cases he : thread' = thread
  · subst he
    have hsize := size_disarm_add_one hi
    have hinj := h.inj thread'
    rw [← hsize] at hinj
    simp only [InHeap, disarm, Function.update_self, NosTimerHeap.removeNode, forall_const]
    rw [exists_removeAt_iff hinj (by omega), hsize]
  · simp [InHeap, disarm, he]

theorem inHeap_of_disarm (hi : i < (s.heaps thread).size) {x : Option NosTimer}
    {thread' : ThreadId} {timer' : TimerId}
    (h : (s.disarm thread i timer x).InHeap thread' timer') : s.InHeap thread' timer' := by
  by_cases he : thread' = thread
  · subst he
    simp only [InHeap, disarm, Function.update_self, NosTimerHeap.removeNode] at h
    have hin := exists_of_removeAt (p := (· = timer')) (by omega) h
    rwa [size_disarm_add_one hi] at hin
  · simpa [InHeap, disarm, he] using h

theorem not_inHeap_disarm (hi : i < (s.heaps thread).size)
    (honly : ∀ k < (s.heaps thread).size, (s.heaps thread).nodes k = timer → k = i)
    {x : Option NosTimer} : ¬ (s.disarm thread i timer x).InHeap thread timer := by
  rintro ⟨k, hk, hn⟩
  simp only [disarm, Function.update_self, NosTimerHeap.removeNode] at hk hn
  rw [← size_disarm_add_one hi] at honly
  exact removeAt_ne (by omega) honly k hk hn

theorem Members.disarm (h : s.Members) (hi : i < (s.heaps thread).size)
    (hn : (s.heaps thread).nodes i = timer) {x : Option NosTimer}
    (hx : ∀ t, x = some t → t.isRunning = false) : (s.disarm thread i timer x).Members where
  null := by
    have h0 : timer ≠ 0 := by
      rintro rfl
      obtain ⟨t, ht, -⟩ := (h.mem_iff thread 0).mp ⟨i, hi, hn⟩
      simp [h.null] at ht
    simp [TimerSystem.disarm, Function.update_of_ne h0.symm, h.null]
  owned timer' t ht hr := by
    by_cases he : timer' = timer
    · subst he
      simp only [TimerSystem.disarm, Function.update_self] at ht
      simp [hx t ht] at hr
    · exact h.owned timer' t (by simpa [TimerSystem.disarm, Function.update_of_ne he] using ht) hr
  inj thread' := by
    by_cases he : thread' = thread
    · subst he
      have hsize := size_disarm_add_one hi
      have hinj := h.inj thread'
      rw [← hsize] at hinj
      simp only [TimerSystem.disarm, Function.update_self, NosTimerHeap.removeNode]
      exact injOn_removeAt hinj (by omega)
    · simpa [TimerSystem.disarm, Function.update_of_ne he] using h.inj thread'
  mem_iff thread' timer' := by
    rw [inHeap_disarm h hi, hn]
    by_cases he : timer' = timer
    · subst he
      refine iff_of_false ?_ (not_runningOn_update hx)
      rintro ⟨hne, hin⟩
      obtain ⟨t, ht, hr, ho⟩ := (h.mem_iff thread' timer').mp hin
      obtain ⟨t', ht', hr', ho'⟩ := (h.mem_iff thread timer').mp ⟨i, hi, hn⟩
      rw [ht] at ht'
      obtain rfl := Option.some.inj ht'
      rw [ho] at ho'
      exact hne (Option.some.inj ho') rfl
    · simp only [ne_eq, he, not_false_eq_true, implies_true, true_and]
      exact (h.mem_iff thread' timer').trans (runningOn_update_of_ne he).symm

theorem nosTimerStart_some {thread : Option ThreadId} {intervalMs : ℕ} {isPeriodic : Bool}
    {r : NosStatus × TimerSystem}
    (h : s.nosTimerStart thread timer now intervalMs isPeriodic = some r) :
    r = (.err, s) ∨ ∃ thread' t, thread = some thread' ∧ timer ≠ 0 ∧
      s.timers timer = some t ∧ t.isRunning = false ∧
      (s.heaps thread').size < (s.heaps thread').capacity ∧ r = (.ok, s.arm thread' timer { t with
        intervalMs := intervalMs
        expireAtMs := u64 (now + intervalMs)
        isPeriodic := isPeriodic
        isRunning := true
        ownerThread := some thread' }) := by
  unfold nosTimerStart at h
  split at h
  · exact Or.inl (Option.some.inj h).symm
  · next thread' =>
    split_ifs at h with h0
    · exact Or.inl (Option.some.inj h).symm
    · split at h
      · cases h
      · next t ht =>
        split_ifs at h with hr
        · exact Or.inl (Option.some.inj h).symm
        · rw [not_or, Bool.not_eq_true, not_le] at hr
          exact Or.inr ⟨thread', t, rfl, h0, ht, hr.1, hr.2, (Option.some.inj h).symm⟩

theorem Members.findNode_ne_none (h : s.Members) (ht : s.timers timer = some t)
    (hr : t.isRunning = true) (ho : t.ownerThread = some thread) :
    (s.heaps thread).findNode timer ≠ none := by
  intro hn
  obtain ⟨k, hk, he⟩ := (h.mem_iff thread timer).mpr ⟨t, ht, hr, ho⟩
  exact NosTimerHeap.findNode_none hn k hk he

theorem Members.nosTimerStop_some (hm : s.Members) {thread : Option ThreadId}
    {r : NosStatus × TimerSystem} (h : s.nosTimerStop thread timer = some r) :
    (r = (.err, s) ∧ ∀ t, s.timers timer = some t → t.isRunning = false) ∨
      ∃ thread' t i, s.timers timer = some t ∧ t.isRunning = true ∧
        t.ownerThread = some thread' ∧ (s.heaps thread').findNode timer = some i ∧
        r = (.ok, s.disarm thread' i timer (some { t with isRunning := false })) := by
  unfold nosTimerStop at h
  split at h
  · cases h
  · next t ht =>
    have hidle : t.isRunning = false → ∀ t', s.timers timer = some t' → t'.isRunning = false := by
      intro hr t' ht'
      rw [ht] at ht'
      rw [← Option.some.inj ht', hr]
    split at h
    · next ho =>
      refine Or.inl ⟨(Option.some.inj h).symm, hidle ?_⟩
      by_contra hr
      exact hm.owned timer t ht (by simpa using hr) (Option.or_eq_none_iff.mp ho).1
    · next thread' ho =>
      split_ifs at h with hr
      · obtain ⟨th, hth⟩ := Option.ne_none_iff_exists'.mp (hm.owned timer t ht hr)
        simp only [hth, Option.some_or, Option.some.injEq] at ho
        rw [ho] at hth
        split at h
        · next hn => exact absurd hn (hm.findNode_ne_none ht hr hth)
        · next i hi => exact Or.inr ⟨thread', t, i, ht, hr, hth, hi, (Option.some.inj h).symm⟩
      · exact Or.inl ⟨(Option.some.inj h).symm, hidle (by simpa using hr)⟩

theorem nosTimerStop_cases {thread : Option ThreadId} {r : NosStatus × TimerSystem}
    (h : s.nosTimerStop thread timer = some r) :
    (r = (.err, s) ∧ ∀ thread', s.RunningOn thread' timer → ¬ s.InHeap thread' timer) ∨
      ∃ thread' t i, s.timers timer = some t ∧ t.ownerThread.or thread = some thread' ∧
        (s.heaps thread').findNode timer = some i ∧
        r = (.ok, s.disarm thread' i timer (some { t with isRunning := false })) := by
  unfold nosTimerStop at h
  split at h
  · cases h
  · next t ht =>
    split at h
    · next ho =>
      refine Or.inl ⟨(Option.some.inj h).symm, ?_⟩
      rintro thread' ⟨t', ht', -, hown⟩ -
      rw [ht] at ht'
      obtain rfl := Option.some.inj ht'
      simp [hown] at ho
    · next thread' ho =>
      split_ifs at h with hr
      · split at h
        · next hn =>
          refine Or.inl ⟨(Option.some.inj h).symm, ?_⟩
          rintro thread'' ⟨t', ht', -, hown⟩ ⟨k, hk, hnode⟩
          rw [ht] at ht'
          obtain rfl := Option.some.inj ht'
          rw [hown, Option.some_or] at ho
          obtain rfl := Option.some.inj ho
          exact NosTimerHeap.findNode_none hn k hk hnode
        · next i hi => exact Or.inr ⟨thread', t, i, ht, ho, hi, (Option.some.inj h).symm⟩
      · refine Or.inl ⟨(Option.some.inj h).symm, ?_⟩
        rintro thread'' ⟨t', ht', hr', -⟩ -
        rw [ht] at ht'
        obtain rfl := Option.some.inj ht'
        exact hr hr'

theorem nosTimerDelete_cases (h : s.nosTimerDelete timer = some s') :
    s'.heaps = s.heaps ∨ ∃ thread i, (s.heaps thread).findNode timer = some i ∧
      s' = s.disarm thread i timer none := by
  unfold nosTimerDelete at h
  split_ifs at h
  · exact Or.inl (by rw [← Option.some.inj h])
  · split at h
    · cases h
    · split at h
      · exact Or.inl (by rw [← Option.some.inj h])
      · split at h
        · exact Or.inl (by rw [← Option.some.inj h])
        · next i hi => exact Or.inr ⟨_, i, hi, (Option.some.inj h).symm⟩

theorem Members.nosTimerDelete_some (hm : s.Members) (h : s.nosTimerDelete timer = some s') :
    (s' = s ∧ ∀ t, s.timers timer = some t → t.isRunning = false) ∨
      (timer ≠ 0 ∧ (∀ t, s.timers timer = some t → t.isRunning = false) ∧
        s' = { s with timers := Function.update s.timers timer none }) ∨
      ∃ thread t i, s.timers timer = some t ∧ t.isRunning = true ∧ t.ownerThread = some thread ∧
        (s.heaps thread).findNode timer = some i ∧ s' = s.disarm thread i timer none := by
  unfold nosTimerDelete at h
  split_ifs at h with h0
  · exact Or.inl ⟨(Option.some.inj h).symm, fun t ht => by simp [h0, hm.null] at ht⟩
  · right
    split at h
    · cases h
    · next t ht =>
      split at h
      · next ho =>
        refine Or.inl ⟨h0, fun t' ht' => ?_, (Option.some.inj h).symm⟩
        rw [ht] at ht'
        obtain rfl := Option.some.inj ht'
        split_ifs at ho with hr
        · exact absurd ho (hm.owned timer t ht hr)
        · simpa using hr
      · next thread ho =>
        split_ifs at ho with hr
        split at h
        · next hn => exact absurd hn (hm.findNode_ne_none ht hr ho)
        · next i hi => exact Or.inr ⟨thread, t, i, ht, hr, ho, hi, (Option.some.inj h).symm⟩

/-- One iteration of the loop in `process_timers`: the root is taken out, and a periodic one is
put back with a later expiry. -/
inductive Fires (s : TimerSystem) (thread : ThreadId) : TimerSystem → Prop where
  | oneShot {t : NosTimer} (hsize : 0 < (s.heaps thread).size)
      (ht : s.timers (s.root thread) = some t) : Fires s thread (s.popRoot thread t)
  | periodic {t : NosTimer} (hsize : 0 < (s.heaps thread).size)
      (ht : s.timers (s.root thread) = some t) (later : ℕ) :
      Fires s thread ((s.popRoot thread t).rearm thread (s.root thread) t later)

/-- What a single iteration keeps, the whole loop keeps. -/
theorem processTimersLoop_invariant {I : TimerSystem → Prop}
    (hstep : ∀ s s', I s → Fires s thread s' → I s') {clock : List ℕ}
    {r : TimerSystem × List TimerId × List ℕ} (h₀ : I s)
    (h : processTimersLoop thread s now clock = some r) : I r.1 := by
  induction s, now, clock using processTimersLoop.induct thread generalizing r with
  | case1 s now clock hdue ht =>
    rw [processTimersLoop, if_pos hdue] at h
    simp only [ht] at h
    cases h
  | case2 s now hdue t ht now' clock hp ih =>
    rw [processTimersLoop, if_pos hdue] at h
    simp only [ht, hp, Option.map_eq_some_iff] at h
    obtain ⟨r', h, rfl⟩ := h
    show I r'.1
    exact ih (hstep s _ h₀ (.oneShot hdue.1 ht)) h
  | case3 s now hdue t ht later now' clock hp ih =>
    rw [processTimersLoop, if_pos hdue] at h
    simp only [ht, hp, Option.map_eq_some_iff] at h
    obtain ⟨r', h, rfl⟩ := h
    show I r'.1
    exact ih (hstep s _ h₀ (.periodic hdue.1 ht later)) h
  | case4 s now clock hdue t ht hone hper =>
    rw [processTimersLoop, if_pos hdue] at h
    simp only [ht] at h
    cases h
  | case5 s now clock hdue =>
    rw [processTimersLoop, if_neg hdue] at h
    obtain rfl := Option.some.inj h
    exact h₀

theorem processTimers_invariant {I : TimerSystem → Prop}
    (hstep : ∀ s s', I s → Fires s thread s' → I s') {clock : List ℕ}
    {r : TimerSystem × List TimerId × List ℕ} (h₀ : I s)
    (h : s.processTimers thread clock = some r) : I r.1 := by
  cases clock with
  | nil => cases h
  | cons now clock => exact processTimersLoop_invariant hstep h₀ h

theorem Members.root_ne_zero (h : s.Members) (hsize : 0 < (s.heaps thread).size) :
    s.root thread ≠ 0 := by
  intro h0
  obtain ⟨t, ht, -⟩ := (h.mem_iff thread 0).mp ⟨0, hsize, h0⟩
  simp [h.null] at ht

theorem Members.owner_of_root (h : s.Members) (hsize : 0 < (s.heaps thread).size)
    (ht : s.timers (s.root thread) = some t) : t.ownerThread = some thread := by
  obtain ⟨t', ht', -, ho⟩ := (h.mem_iff thread _).mp ⟨0, hsize, rfl⟩
  change s.timers (s.root thread) = some t' at ht'
  rw [ht] at ht'
  obtain rfl := Option.some.inj ht'
  exact ho

theorem Members.popRoot (h : s.Members) (hsize : 0 < (s.heaps thread).size) (t : NosTimer) :
    (s.popRoot thread t).Members :=
  h.disarm hsize rfl fun _ he => by rw [← Option.some.inj he]

theorem popRoot_root (s : TimerSystem) (thread : ThreadId) (t : NosTimer) :
    (s.popRoot thread t).timers (s.root thread) = some { t with isRunning := false } := by
  simp [TimerSystem.popRoot, TimerSystem.disarm]

theorem Members.fires (h : s.Members) (hf : Fires s thread s') : s'.Members := by
  cases hf with
  | oneShot hsize ht => exact h.popRoot hsize _
  | @periodic t hsize ht later =>
    have ho := h.owner_of_root hsize ht
    refine (h.popRoot hsize t).arm (h.root_ne_zero hsize) ?_ rfl ho
    intro t' ht'
    rw [popRoot_root] at ht'
    rw [← Option.some.inj ht']

theorem Members.step {call : TimerCall} (h : s.Members) (hstep : timerStep s call = some s') :
    s'.Members := by
  cases call with
  | create timer callback arg freeArg =>
    simp only [timerStep, Option.ite_none_right_eq_some, Option.some.injEq] at hstep
    obtain ⟨⟨h0, hn⟩, rfl⟩ := hstep
    exact h.store h0 (fun t he => by rw [← Option.some.inj he]) (fun t ht => by simp [hn] at ht)
  | start thread timer now intervalMs isPeriodic =>
    obtain ⟨r, hr, rfl⟩ := Option.map_eq_some_iff.mp hstep
    rcases nosTimerStart_some hr with rfl | ⟨thread', t, -, h0, ht, hrun, -, rfl⟩
    · exact h
    · refine h.arm h0 (fun t' ht' => ?_) rfl rfl
      rw [ht] at ht'
      rw [← Option.some.inj ht', hrun]
  | stop thread timer =>
    obtain ⟨r, hr, rfl⟩ := Option.map_eq_some_iff.mp hstep
    rcases h.nosTimerStop_some hr with ⟨rfl, -⟩ | ⟨thread', t, i, -, -, -, hi, rfl⟩
    · exact h
    · obtain ⟨hlt, hn⟩ := NosTimerHeap.findNode_some hi
      exact h.disarm hlt hn fun t' he => by rw [← Option.some.inj he]
  | delete timer =>
    rcases h.nosTimerDelete_some hstep with
      ⟨rfl, -⟩ | ⟨h0, hrun, rfl⟩ | ⟨thread', t, i, -, -, -, hi, rfl⟩
    · exact h
    · exact h.store h0 (fun t he => by cases he) hrun
    · obtain ⟨hlt, hn⟩ := NosTimerHeap.findNode_some hi
      exact h.disarm hlt hn fun t' he => by cases he
  | process thread clock =>
    obtain ⟨r, hr, rfl⟩ := Option.map_eq_some_iff.mp hstep
    exact processTimers_invariant (fun s s' hs hf => hs.fires hf) h hr

end TimerSystem

end GeminiNOS

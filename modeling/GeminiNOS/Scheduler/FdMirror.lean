import GeminiNOS.Foundations.SlotTable
import GeminiNOS.Scheduler.FdTable

/-! # The descriptor table and the epoll set

A thread lists in its table what it has given to epoll. An addition takes its slot before
it asks the kernel, and keeps it when the kernel refuses. The table also does not learn of
a close, which takes a descriptor out of the epoll set.
-/

namespace GeminiNOS

open Foundations

namespace FdTable

def entries (thread : FdTable) : SlotTable NosFdEntry := ⟨thread.fdEntries, thread.fdCount⟩

/-- A descriptor is in the epoll set. That does not count the entry of the thread for its eventfd,
which is not in the table. -/
def Registered (thread : FdTable) (fd : Fd) : Prop :=
  ∃ ev, thread.epoll fd = some ev ∧ ev.ptr ≠ .notifyEntry

/-- The table lists the descriptors in the epoll set, each once. -/
structure Mirrors (thread : FdTable) : Prop where
  distinct : thread.entries.Distinct NosFdEntry.fd
  listed : ∀ fd, (∃ i < thread.fdCount, (thread.fdEntries i).fd = fd) ↔ thread.Registered fd

/-- The slots in use are those of another table. -/
structure SameEntries (thread thread' : FdTable) : Prop where
  fdCount_eq : thread'.fdCount = thread.fdCount
  fdEntries_eq : ∀ i < thread.fdCount, thread'.fdEntries i = thread.fdEntries i

/-- The kernel closes a descriptor, and takes it out of the epoll set. -/
def close (thread : FdTable) (fd : Fd) : FdTable :=
  { thread with epoll := Function.update thread.epoll fd none }

end FdTable

/-- A call on the table, or a close of a descriptor by one of its users. -/
inductive FdEvent where
  | call (call : FdCall)
  | close (fd : Fd)
  deriving DecidableEq, Repr

/-- A thread, with the tables before and after each addition that has returned `NOS_ERR`. -/
structure FdHistory where
  thread : FdTable
  refused : List (FdTable × FdTable)

namespace FdHistory

def init (notifyFd : Fd) : FdHistory := ⟨nosSchedulerInitFds notifyFd, []⟩

def afterAdd (s : FdHistory) (r : NosStatus × FdTable) : FdHistory where
  thread := r.2
  refused := if r.1 = .ok then s.refused else s.refused ++ [(s.thread, r.2)]

def step (s : FdHistory) : FdEvent → Option FdHistory
  | .call (.addFdEx fd events callback arg accept) =>
    some (s.afterAdd (nosSchedulerAddFdEx s.thread fd events callback arg accept))
  | .call (.removeFd fd) => some { s with thread := (nosSchedulerRemoveFd s.thread fd).2 }
  | .close fd => some { s with thread := s.thread.close fd }

/-- The law of the table: it mirrors the epoll set, and an addition that fails leaves it as it
was. -/
structure MirrorsEpoll (s : FdHistory) : Prop where
  mirrors : s.thread.Mirrors
  refused : ∀ p ∈ s.refused, p.1.SameEntries p.2

/-- The condition on a step. An addition for which the table has room is not refused by the kernel,
and what is closed is not in the epoll set. -/
def Answered (s : FdHistory) : FdEvent → Prop
  | .call (.addFdEx fd _ _ _ accept) =>
    s.thread.fdCount < maxFdEntries → accept = true ∧ s.thread.epoll fd = none
  | .call (.removeFd _) => True
  | .close fd => ¬ s.thread.Registered fd

end FdHistory

namespace FdTable

variable {thread : FdTable} {fd : Fd}

theorem registered_congr {thread' : FdTable} (h : thread'.epoll fd = thread.epoll fd) :
    thread'.Registered fd ↔ thread.Registered fd := by
  rw [Registered, Registered, h]

theorem not_registered_of_none (h : thread.epoll fd = none) : ¬ thread.Registered fd := by
  rintro ⟨ev, hev, -⟩
  rw [h] at hev
  cases hev

theorem Mirrors.findSlot_eq_none (h : thread.Mirrors) :
    thread.findSlot fd = none ↔ ¬ thread.Registered fd := by
  rw [← h.listed fd]
  push Not
  exact @SlotTable.findIdx_eq_none _ _ _ NosFdEntry.fd thread.entries fd

theorem Mirrors.close (h : thread.Mirrors) (hfd : ¬ thread.Registered fd) :
    (thread.close fd).Mirrors := by
  refine ⟨h.distinct, fun fd' => (h.listed fd').trans ?_⟩
  rcases eq_or_ne fd' fd with rfl | hne
  · exact iff_of_false hfd (not_registered_of_none (Function.update_self ..))
  · exact (registered_congr (Function.update_of_ne hne ..)).symm

theorem Mirrors.not_close (h : thread.Mirrors) (hfd : thread.Registered fd) :
    ¬ (thread.close fd).Mirrors := by
  intro h'
  have hlisted := (h'.listed fd).mp ((h.listed fd).mpr hfd)
  exact not_registered_of_none (Function.update_self ..) hlisted

variable {events arg : ℕ} {callback : Option ℕ} {accept : Bool}

def add (thread : FdTable) (fd : Fd) (callback : Option ℕ) (arg : ℕ) : FdTable :=
  { thread with
    fdEntries := Function.update thread.fdEntries thread.fdCount ⟨fd, callback, arg⟩
    fdCount := thread.fdCount + 1 }

theorem fdEntries_add_self :
    (thread.add fd callback arg).fdEntries thread.fdCount = ⟨fd, callback, arg⟩ :=
  Function.update_self ..

theorem fdEntries_add_of_lt {i : ℕ} (h : i < thread.fdCount) :
    (thread.add fd callback arg).fdEntries i = thread.fdEntries i :=
  Function.update_of_ne (Nat.ne_of_lt h) ..

theorem addFdEx_full (h : maxFdEntries ≤ thread.fdCount) :
    nosSchedulerAddFdEx thread fd events callback arg accept = (.err, thread) := by
  rw [nosSchedulerAddFdEx, if_pos h]

theorem addFdEx_accepted (h : thread.fdCount < maxFdEntries) (hnone : thread.epoll fd = none) :
    nosSchedulerAddFdEx thread fd events callback arg true =
      (.ok, { thread.add fd callback arg with
        epoll := Function.update thread.epoll fd (some ⟨events, .fdEntry thread.fdCount⟩) }) := by
  simp [nosSchedulerAddFdEx, epollCtlAdd, add, hnone, Nat.not_le.mpr h]

theorem addFdEx_refused (h : thread.fdCount < maxFdEntries)
    (hrefused : ¬ (accept = true ∧ thread.epoll fd = none)) :
    nosSchedulerAddFdEx thread fd events callback arg accept =
      (.err, thread.add fd callback arg) := by
  rw [nosSchedulerAddFdEx, if_neg (Nat.not_le.mpr h)]
  simp only [epollCtlAdd, if_neg hrefused]
  rfl

theorem listed_add (fd' : Fd) :
    (∃ i < (thread.add fd callback arg).fdCount,
      ((thread.add fd callback arg).fdEntries i).fd = fd') ↔
      fd' = fd ∨ ∃ i < thread.fdCount, (thread.fdEntries i).fd = fd' := by
  constructor
  · rintro ⟨i, hi, rfl⟩
    rcases Nat.lt_succ_iff_lt_or_eq.mp hi with hlt | rfl
    · exact .inr ⟨i, hlt, by rw [fdEntries_add_of_lt hlt]⟩
    · exact .inl (by rw [fdEntries_add_self])
  · rintro (rfl | ⟨i, hi, rfl⟩)
    · exact ⟨thread.fdCount, Nat.lt_succ_self _, by rw [fdEntries_add_self]⟩
    · exact ⟨i, Nat.lt_succ_of_lt hi, by rw [fdEntries_add_of_lt hi]⟩

theorem Mirrors.accepted (h : thread.Mirrors) (hnone : thread.epoll fd = none) :
    Mirrors { thread.add fd callback arg with
      epoll := Function.update thread.epoll fd (some ⟨events, .fdEntry thread.fdCount⟩) } := by
  have hfind : thread.findSlot fd = none :=
    h.findSlot_eq_none.mpr (not_registered_of_none hnone)
  refine ⟨h.distinct.push hfind rfl, fun fd' => (listed_add fd').trans ?_⟩
  rcases eq_or_ne fd' fd with rfl | hne
  · refine iff_of_true (.inl rfl) ⟨⟨events, .fdEntry thread.fdCount⟩, ?_, ?_⟩
    · exact Function.update_self ..
    · rintro ⟨⟩
  · rw [or_iff_right hne, h.listed fd']
    exact (registered_congr (Function.update_of_ne hne ..)).symm

theorem Mirrors.not_add (h : thread.Mirrors) : ¬ (thread.add fd callback arg).Mirrors := by
  intro h'
  have hregistered : thread.Registered fd := (h'.listed fd).mp ((listed_add fd).mpr (.inl rfl))
  obtain ⟨i, hi, hfd⟩ := (h.listed fd).mpr hregistered
  have hslot : ((thread.add fd callback arg).fdEntries i).fd =
      ((thread.add fd callback arg).fdEntries thread.fdCount).fd := by
    rw [fdEntries_add_of_lt hi, fdEntries_add_self, hfd]
  have := h'.distinct i (Nat.lt_succ_of_lt hi) thread.fdCount (Nat.lt_succ_self _) hslot
  omega

theorem Mirrors.removeFd (h : thread.Mirrors) : (nosSchedulerRemoveFd thread fd).2.Mirrors := by
  unfold nosSchedulerRemoveFd
  split <;> rename_i hfind
  · exact h.close (h.findSlot_eq_none.mp hfind)
  · rename_i i
    have hi : i < thread.fdCount := SlotTable.lt_of_findIdx (t := thread.entries) hfind
    have hdistinct : (thread.entries.swapRemove i).Distinct NosFdEntry.fd :=
      h.distinct.swapRemove hi
    refine ⟨hdistinct, fun fd' => ?_⟩
    have hslots : (thread.entries.swapRemove i).find NosFdEntry.fd fd' = _ :=
      h.distinct.find_swapRemove hfind
    have hlisted : (∃ j < thread.fdCount - 1,
        ((thread.entries.swapRemove i).slots j).fd = fd') ↔ fd' ≠ fd ∧ thread.Registered fd' := by
      rw [← h.listed fd', ← not_iff_not]
      push Not
      refine (@SlotTable.find_eq_none _ _ _ NosFdEntry.fd (thread.entries.swapRemove i)
        fd').symm.trans ?_
      rw [hslots]
      split
      · exact iff_of_true rfl fun hne => absurd ‹fd' = fd› hne
      · exact SlotTable.find_eq_none.trans ⟨fun hne _ => hne, fun hne => hne ‹fd' ≠ fd›⟩
    refine hlisted.trans ?_
    rcases eq_or_ne fd' fd with rfl | hne
    · exact iff_of_false (fun hne => hne.1 rfl)
        (not_registered_of_none (Function.update_self ..))
    · refine (and_iff_right hne).trans (registered_congr ?_).symm
      exact Function.update_of_ne hne ..

theorem mirrors_init (notifyFd : Fd) : (nosSchedulerInitFds notifyFd).Mirrors := by
  refine ⟨fun i hi => absurd hi (Nat.not_lt_zero i), fun fd => ?_⟩
  refine iff_of_false (fun ⟨i, hi, _⟩ => Nat.not_lt_zero i hi) ?_
  rintro ⟨ev, hev, hptr⟩
  simp only [nosSchedulerInitFds, Function.update_apply] at hev
  split at hev
  · obtain rfl := Option.some.inj hev
    exact hptr rfl
  · cases hev

end FdTable

namespace FdHistory

variable {s s' : FdHistory} {event : FdEvent}

theorem MirrorsEpoll.addFdEx_iff (h : s.MirrorsEpoll) {fd : Fd} {events arg : ℕ}
    {callback : Option ℕ} {accept : Bool} :
    MirrorsEpoll (s.afterAdd (nosSchedulerAddFdEx s.thread fd events callback arg accept)) ↔
      s.Answered (.call (.addFdEx fd events callback arg accept)) := by
  rcases Nat.lt_or_ge s.thread.fdCount maxFdEntries with hroom | hfull
  · by_cases haccept : accept = true ∧ s.thread.epoll fd = none
    · obtain ⟨rfl, hnone⟩ := haccept
      rw [FdTable.addFdEx_accepted hroom hnone]
      exact iff_of_true ⟨h.mirrors.accepted hnone, h.refused⟩ fun _ => ⟨rfl, hnone⟩
    · rw [FdTable.addFdEx_refused hroom haccept]
      exact iff_of_false (fun h' => h.mirrors.not_add h'.mirrors) fun hans => haccept (hans hroom)
  · rw [FdTable.addFdEx_full hfull]
    refine iff_of_true ⟨h.mirrors, fun p hp => ?_⟩ fun hroom => absurd hroom (by omega)
    rcases List.mem_append.mp hp with hp | hp
    · exact h.refused p hp
    · obtain rfl := List.mem_singleton.mp hp
      exact ⟨rfl, fun _ _ => rfl⟩

/-- A step keeps the law exactly if it meets the condition. -/
theorem MirrorsEpoll.step_iff (h : s.MirrorsEpoll) (hstep : s.step event = some s') :
    s'.MirrorsEpoll ↔ s.Answered event := by
  cases event with
  | call call =>
    cases call with
    | addFdEx fd events callback arg accept =>
      obtain rfl := Option.some.inj hstep
      exact h.addFdEx_iff
    | removeFd fd =>
      obtain rfl := Option.some.inj hstep
      exact iff_of_true ⟨h.mirrors.removeFd, h.refused⟩ trivial
  | close fd =>
    obtain rfl := Option.some.inj hstep
    by_cases hfd : s.thread.Registered fd
    · exact iff_of_false (fun h' => h.mirrors.not_close hfd h'.mirrors) fun hans => hans hfd
    · exact iff_of_true ⟨h.mirrors.close hfd, h.refused⟩ hfd

/-- The table mirrors the epoll set along a run if and only if the kernel refuses no addition for
which the table has room, and nothing is closed that is in the epoll set. -/
theorem always_mirrorsEpoll_iff (notifyFd : Fd) (events : List FdEvent) :
    Run.Always step MirrorsEpoll (init notifyFd) events ↔
      Run.Guarded step Answered (init notifyFd) events :=
  Run.always_iff_guarded (I := MirrorsEpoll) (fun _ h => h) (fun _ _ _ _ _ h => h)
    (fun _ _ _ h hstep => h.step_iff hstep)
    ⟨FdTable.mirrors_init notifyFd, fun _ hp => absurd hp List.not_mem_nil⟩

/-- An addition that the kernel refuses takes a slot. -/
theorem not_mirrorsEpoll_refused :
    ∃ s, Run.exec step (init 5) [.call (.addFdEx 7 epollIn (some 110) 210 false)] = some s ∧
      s.thread.fdCount = 1 ∧ s.thread.epoll 7 = none ∧ ¬ s.MirrorsEpoll := by
  refine ⟨_, rfl, rfl, by decide, fun h => ?_⟩
  have hsame := h.refused _ List.mem_cons_self
  exact absurd hsame.fdCount_eq (by decide)

end FdHistory

end GeminiNOS

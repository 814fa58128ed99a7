import Mathlib.Logic.Function.Basic
import Mathlib.Data.List.Basic
import Mathlib.Tactic.Common
import GeminiNOS.Basic
import GeminiNOS.Foundations.Run

/-! # The descriptor table of a scheduler thread

A thread keeps the entries of its descriptors in an array of 32 slots and hands
epoll a raw pointer to the slot. Removal moves the last entry into the freed
slot, while epoll keeps the pointer given at registration.
-/

namespace GeminiNOS

open Foundations

/-- The array length behind `fd_entries`. -/
def maxFdEntries : ℕ := 32

/-- A slot of the descriptor table (`nos_fd_entry_t`); a null callback is `none`. -/
structure NosFdEntry where
  fd : Fd
  callback : Option ℕ
  arg : ℕ
  deriving DecidableEq, Repr

/-- The values of `data.ptr` that a thread passes to epoll. -/
inductive EntryPtr where
  | notifyEntry
  | fdEntry (slot : ℕ)
  deriving DecidableEq, Repr

/-- A registration in the epoll set: the event mask and the pointer it carries back. -/
structure EpollEvent where
  events : ℕ
  ptr : EntryPtr
  deriving DecidableEq, Repr

/-- The descriptor part of `nos_thread_t`, with the epoll set behind `epoll_fd`. -/
structure FdTable where
  notifyFd : Fd
  notifyEntry : NosFdEntry
  fdEntries : ℕ → NosFdEntry
  fdCount : ℕ
  epoll : Fd → Option EpollEvent

/-- `EPOLLIN` -/
def epollIn : ℕ := 0x001
/-- `EPOLLOUT` -/
def epollOut : ℕ := 0x004
/-- `EPOLLET` -/
def epollEt : ℕ := 0x80000000

/-- The table as `nos_scheduler_init_thread` leaves it. -/
def nosSchedulerInitFds (notifyFd : Fd) : FdTable where
  notifyFd := notifyFd
  notifyEntry := ⟨notifyFd, none, 0⟩
  fdEntries := fun _ => ⟨0, none, 0⟩
  fdCount := 0
  epoll := Function.update (fun _ => none) notifyFd (some ⟨epollIn, .notifyEntry⟩)

/-- `epoll_ctl(EPOLL_CTL_ADD)`: a registered descriptor is refused, and so is one the kernel
does not accept. -/
def epollCtlAdd (epoll : Fd → Option EpollEvent) (fd : Fd) (ev : EpollEvent) (accept : Bool) :
    Option (Fd → Option EpollEvent) :=
  if accept ∧ epoll fd = none then some (Function.update epoll fd (some ev)) else none

/-- `nos_scheduler_add_fd_ex` -/
def nosSchedulerAddFdEx (thread : FdTable) (fd : Fd) (events : ℕ) (callback : Option ℕ)
    (arg : ℕ) (accept : Bool) : NosStatus × FdTable :=
  if maxFdEntries ≤ thread.fdCount then (.err, thread) else
    let slot := thread.fdCount
    let thread := { thread with
      fdEntries := Function.update thread.fdEntries slot ⟨fd, callback, arg⟩
      fdCount := slot + 1 }
    match epollCtlAdd thread.epoll fd ⟨events, .fdEntry slot⟩ accept with
    | none => (.err, thread)
    | some epoll => (.ok, { thread with epoll := epoll })

/-- `nos_scheduler_add_fd` -/
def nosSchedulerAddFd (thread : FdTable) (fd : Fd) (callback : Option ℕ) (arg : ℕ)
    (accept : Bool) : NosStatus × FdTable :=
  nosSchedulerAddFdEx thread fd epollIn callback arg accept

/-- The slot at which the scan of `nos_scheduler_remove_fd` stops. -/
def FdTable.findSlot (thread : FdTable) (fd : Fd) : Option ℕ :=
  (List.range thread.fdCount).find? fun i => (thread.fdEntries i).fd = fd

/-- `nos_scheduler_remove_fd` -/
def nosSchedulerRemoveFd (thread : FdTable) (fd : Fd) : NosStatus × FdTable :=
  match thread.findSlot fd with
  | none => (.err, { thread with epoll := Function.update thread.epoll fd none })
  | some i =>
    (.ok, { thread with
      epoll := Function.update thread.epoll fd none
      fdEntries := Function.update thread.fdEntries i (thread.fdEntries (thread.fdCount - 1))
      fdCount := thread.fdCount - 1 })

/-- What the run loop does with one reported event. -/
inductive Dispatch where
  | readNotify
  | call (callback : ℕ) (fd : Fd) (arg : ℕ)
  | skip
  deriving DecidableEq, Repr

/-- The entry behind a `data.ptr`. -/
def FdTable.entryAt (thread : FdTable) : EntryPtr → NosFdEntry
  | .notifyEntry => thread.notifyEntry
  | .fdEntry slot => thread.fdEntries slot

/-- The body of the event loops in `nos_scheduler_run_loop`, on the entry they read. -/
def dispatchEntry (notifyFd : Fd) (entry : NosFdEntry) : Dispatch :=
  if entry.fd = notifyFd then .readNotify else
    match entry.callback with
    | some callback => .call callback entry.fd entry.arg
    | none => .skip

/-- One event of `nos_scheduler_run_loop`; an event without a pointer is skipped. -/
def FdTable.dispatchEvent (thread : FdTable) : Option EntryPtr → Dispatch
  | none => .skip
  | some ptr => dispatchEntry thread.notifyFd (thread.entryAt ptr)

/-- Calls on the descriptor table, with the kernel's answer to a registration. -/
inductive FdCall where
  | addFdEx (fd : Fd) (events : ℕ) (callback : Option ℕ) (arg : ℕ) (accept : Bool)
  | removeFd (fd : Fd)
  deriving DecidableEq, Repr

/-- A thread together with what its callers have registered and not yet removed. -/
structure FdSystem where
  thread : FdTable
  registered : Fd → Option (Option ℕ × ℕ)

def FdSystem.init (notifyFd : Fd) : FdSystem :=
  ⟨nosSchedulerInitFds notifyFd, fun _ => none⟩

/-- One call. Callers own the descriptors they pass, so these differ from the thread's own
eventfd, and register each at most once at a time. -/
def fdStep (s : FdSystem) : FdCall → Option FdSystem
  | .addFdEx fd events callback arg accept =>
    if fd ≠ s.thread.notifyFd ∧ s.registered fd = none then
      let r := nosSchedulerAddFdEx s.thread fd events callback arg accept
      some ⟨r.2, if r.1 = .ok then Function.update s.registered fd (some (callback, arg))
        else s.registered⟩
    else none
  | .removeFd fd =>
    if fd ≠ s.thread.notifyFd then
      some ⟨(nosSchedulerRemoveFd s.thread fd).2, Function.update s.registered fd none⟩
    else none

/-- Every registered descriptor has an event whose pointer leads to the entry it was registered
with, so that the run loop calls exactly that callback with that number and argument. -/
def FdSystem.DispatchExact (s : FdSystem) : Prop :=
  ∀ fd callback arg, s.registered fd = some (callback, arg) →
    ∃ ev, s.thread.epoll fd = some ev ∧
      s.thread.entryAt ev.ptr = ⟨fd, callback, arg⟩ ∧
      s.thread.dispatchEvent (some ev.ptr) =
        match callback with
        | some callback => .call callback fd arg
        | none => .skip

/-- No descriptor in the epoll set still points at the slot that the next addition fills. -/
def FdTable.NextSlotUnused (thread : FdTable) : Prop :=
  ∀ fd ev, thread.epoll fd = some ev → ev.ptr ≠ .fdEntry thread.fdCount

/-- The condition under which a call keeps dispatch exact: an addition that takes a slot takes
one that no live registration points at. -/
def FdReuseSafe (s : FdSystem) : FdCall → Prop
  | .addFdEx .. => s.thread.fdCount < maxFdEntries → s.thread.NextSlotUnused
  | .removeFd _ => True

namespace FdSystem

/-- The epoll set holds the thread's eventfd and the registered descriptors, and every pointer
of a registered descriptor leads to its entry. -/
structure Inv (s : FdSystem) : Prop where
  notify : s.thread.epoll s.thread.notifyFd = some ⟨epollIn, .notifyEntry⟩
  notify_unregistered : s.registered s.thread.notifyFd = none
  unregistered : ∀ fd, fd ≠ s.thread.notifyFd → s.registered fd = none → s.thread.epoll fd = none
  pointer : ∀ fd callback arg, s.registered fd = some (callback, arg) →
    ∃ events slot, s.thread.epoll fd = some ⟨events, .fdEntry slot⟩ ∧
      s.thread.fdEntries slot = ⟨fd, callback, arg⟩

theorem inv_init (notifyFd : Fd) : (init notifyFd).Inv where
  notify := by simp [init, nosSchedulerInitFds]
  notify_unregistered := rfl
  unregistered fd hne _ := by
    change fd ≠ notifyFd at hne
    simp [init, nosSchedulerInitFds, hne]
  pointer fd callback arg h := by simp [init] at h

theorem dispatchEntry_registered {notifyFd fd : Fd} (hne : fd ≠ notifyFd)
    (callback : Option ℕ) (arg : ℕ) :
    dispatchEntry notifyFd ⟨fd, callback, arg⟩ =
      match callback with
      | some callback => .call callback fd arg
      | none => .skip := by
  cases callback <;> simp [dispatchEntry, hne]

theorem ne_notifyFd {s : FdSystem} (h : s.registered s.thread.notifyFd = none) {fd : Fd}
    {x : Option ℕ × ℕ} (hr : s.registered fd = some x) : fd ≠ s.thread.notifyFd := by
  rintro rfl
  simp [h] at hr

theorem Inv.dispatchExact {s : FdSystem} (h : s.Inv) : s.DispatchExact := by
  intro fd callback arg hr
  obtain ⟨events, slot, he, hs⟩ := h.pointer fd callback arg hr
  refine ⟨_, he, hs, ?_⟩
  simp only [FdTable.dispatchEvent, FdTable.entryAt, hs]
  exact dispatchEntry_registered (ne_notifyFd h.notify_unregistered hr) callback arg

theorem nosSchedulerAddFdEx_full {thread : FdTable} (h : maxFdEntries ≤ thread.fdCount) (fd : Fd)
    (events : ℕ) (callback : Option ℕ) (arg : ℕ) (accept : Bool) :
    nosSchedulerAddFdEx thread fd events callback arg accept = (.err, thread) := by
  simp [nosSchedulerAddFdEx, h]

theorem nosSchedulerAddFdEx_room {thread : FdTable} (h : thread.fdCount < maxFdEntries) {fd : Fd}
    (hn : thread.epoll fd = none) (events : ℕ) (callback : Option ℕ) (arg : ℕ) (accept : Bool) :
    nosSchedulerAddFdEx thread fd events callback arg accept =
      (if accept then .ok else .err,
        { thread with
          fdEntries := Function.update thread.fdEntries thread.fdCount ⟨fd, callback, arg⟩
          fdCount := thread.fdCount + 1
          epoll := if accept then
              Function.update thread.epoll fd (some ⟨events, .fdEntry thread.fdCount⟩)
            else thread.epoll }) := by
  simp only [nosSchedulerAddFdEx, if_neg (Nat.not_le.mpr h), epollCtlAdd, hn]
  cases accept <;> simp

theorem findSlot_fd {thread : FdTable} {fd : Fd} {i : ℕ} (h : thread.findSlot fd = some i) :
    (thread.fdEntries i).fd = fd := by
  simpa using List.find?_some h

theorem epoll_removeFd (thread : FdTable) (fd : Fd) :
    (nosSchedulerRemoveFd thread fd).2.epoll = Function.update thread.epoll fd none := by
  unfold nosSchedulerRemoveFd
  split <;> rfl

theorem notifyFd_removeFd (thread : FdTable) (fd : Fd) :
    (nosSchedulerRemoveFd thread fd).2.notifyFd = thread.notifyFd := by
  unfold nosSchedulerRemoveFd
  split <;> rfl

theorem fdEntries_removeFd {thread : FdTable} {fd : Fd} {slot : ℕ}
    (h : (thread.fdEntries slot).fd ≠ fd) :
    (nosSchedulerRemoveFd thread fd).2.fdEntries slot = thread.fdEntries slot := by
  unfold nosSchedulerRemoveFd
  split
  · rfl
  · next i hi =>
    have hne : slot ≠ i := by
      rintro rfl
      exact h (findSlot_fd hi)
    simp [hne]

theorem Inv.removeFd {s : FdSystem} (h : s.Inv) {fd : Fd} (hne : fd ≠ s.thread.notifyFd) :
    Inv ⟨(nosSchedulerRemoveFd s.thread fd).2, Function.update s.registered fd none⟩ where
  notify := by
    simp only [epoll_removeFd, notifyFd_removeFd]
    rw [Function.update_of_ne hne.symm, h.notify]
  notify_unregistered := by
    simp only [notifyFd_removeFd]
    rw [Function.update_of_ne hne.symm, h.notify_unregistered]
  unregistered fd' hne' hr := by
    simp only [epoll_removeFd, notifyFd_removeFd] at hne' hr ⊢
    by_cases he : fd' = fd
    · simp [he]
    · rw [Function.update_of_ne he] at hr ⊢
      exact h.unregistered fd' hne' hr
  pointer fd' callback arg hr := by
    have he : fd' ≠ fd := by
      rintro rfl
      simp at hr
    simp only [Function.update_of_ne he] at hr
    obtain ⟨events, slot, hp, hs⟩ := h.pointer fd' callback arg hr
    refine ⟨events, slot, ?_, ?_⟩
    · simp only [epoll_removeFd]
      rw [Function.update_of_ne he, hp]
    · rw [fdEntries_removeFd (by rw [hs]; exact he), hs]

theorem Inv.epoll_none {s : FdSystem} (h : s.Inv) {fd : Fd} (hne : fd ≠ s.thread.notifyFd)
    (hr : s.registered fd = none) : s.thread.epoll fd = none :=
  h.unregistered fd hne hr

theorem Inv.addFdEx {s : FdSystem} (h : s.Inv) {fd : Fd} (hne : fd ≠ s.thread.notifyFd)
    (hr : s.registered fd = none) (hlt : s.thread.fdCount < maxFdEntries)
    (hsafe : s.thread.NextSlotUnused) (events : ℕ) (callback : Option ℕ) (arg : ℕ)
    (accept : Bool) :
    Inv ⟨(nosSchedulerAddFdEx s.thread fd events callback arg accept).2,
      if (nosSchedulerAddFdEx s.thread fd events callback arg accept).1 = .ok then
        Function.update s.registered fd (some (callback, arg)) else s.registered⟩ := by
  rw [nosSchedulerAddFdEx_room hlt (h.epoll_none hne hr)]
  have hold : ∀ fd' callback' arg', s.registered fd' = some (callback', arg') → fd' ≠ fd ∧
      ∃ events' slot, s.thread.epoll fd' = some ⟨events', .fdEntry slot⟩ ∧
        Function.update s.thread.fdEntries s.thread.fdCount ⟨fd, callback, arg⟩ slot =
          ⟨fd', callback', arg'⟩ := by
    intro fd' callback' arg' hr'
    obtain ⟨events', slot, hp, hs⟩ := h.pointer fd' callback' arg' hr'
    have hslot : slot ≠ s.thread.fdCount := by
      rintro rfl
      exact hsafe fd' _ hp rfl
    refine ⟨?_, events', slot, hp, by rw [Function.update_of_ne hslot, hs]⟩
    rintro rfl
    simp [hr] at hr'
  cases accept
  · exact ⟨h.notify, h.notify_unregistered, h.unregistered, fun fd' c a hr' =>
      (hold fd' c a (by simpa using hr')).2⟩
  · refine ⟨?_, ?_, ?_, ?_⟩
    · simpa [Function.update_of_ne hne.symm] using h.notify
    · simpa [Function.update_of_ne hne.symm] using h.notify_unregistered
    · intro fd' hne' hr'
      have he : fd' ≠ fd := by
        rintro rfl
        simp at hr'
      simp only [if_true, Function.update_of_ne he] at hr' ⊢
      exact h.unregistered fd' hne' hr'
    · intro fd' callback' arg' hr'
      by_cases he : fd' = fd
      · subst he
        simp only [if_true, Function.update_self, Option.some.injEq, Prod.mk.injEq] at hr'
        obtain ⟨rfl, rfl⟩ := hr'
        exact ⟨events, s.thread.fdCount, by simp, by simp⟩
      · simp only [if_true, Function.update_of_ne he] at hr'
        obtain ⟨-, events', slot, hp, hs⟩ := hold fd' callback' arg' hr'
        exact ⟨events', slot, by simpa [Function.update_of_ne he] using hp, hs⟩

/-- An addition into a slot that a live registration points at breaks the dispatch of that one. -/
theorem Inv.not_dispatchExact_addFdEx {s : FdSystem} (h : s.Inv) {fd : Fd}
    (hne : fd ≠ s.thread.notifyFd) (hr : s.registered fd = none)
    (hlt : s.thread.fdCount < maxFdEntries) (hused : ¬ s.thread.NextSlotUnused) (events : ℕ)
    (callback : Option ℕ) (arg : ℕ) (accept : Bool) :
    ¬ DispatchExact ⟨(nosSchedulerAddFdEx s.thread fd events callback arg accept).2,
      if (nosSchedulerAddFdEx s.thread fd events callback arg accept).1 = .ok then
        Function.update s.registered fd (some (callback, arg)) else s.registered⟩ := by
  rw [nosSchedulerAddFdEx_room hlt (h.epoll_none hne hr)]
  obtain ⟨fd', ev, he, hp⟩ : ∃ fd' ev, s.thread.epoll fd' = some ev ∧
      ev.ptr = .fdEntry s.thread.fdCount := by
    simpa [FdTable.NextSlotUnused] using hused
  have hnotify : fd' ≠ s.thread.notifyFd := by
    rintro rfl
    rw [h.notify] at he
    obtain rfl := Option.some.inj he
    cases hp
  have hfd : fd' ≠ fd := by
    rintro rfl
    simp [h.epoll_none hne hr] at he
  obtain ⟨⟨callback', arg'⟩, hr'⟩ : ∃ x, s.registered fd' = some x := by
    rw [← Option.ne_none_iff_exists']
    intro hn
    simp [h.epoll_none hnotify hn] at he
  intro hd
  have hlive := hd fd' callback' arg' (by
    cases accept <;> simpa [Function.update_of_ne hfd] using hr')
  obtain ⟨ev', he', hentry, -⟩ := hlive
  have : ev' = ev := by
    cases accept <;> simp [Function.update_of_ne hfd, he] at he' <;> exact he'.symm
  subst this
  simp [FdTable.entryAt, hp] at hentry
  exact hfd hentry.1.symm

theorem fdStep_iff {s s' : FdSystem} (h : s.Inv) {call : FdCall}
    (hstep : fdStep s call = some s') :
    (FdReuseSafe s call → s'.Inv) ∧ (¬ FdReuseSafe s call → ¬ s'.DispatchExact) := by
  cases call with
  | removeFd fd =>
    simp only [fdStep, Option.ite_none_right_eq_some, Option.some.injEq] at hstep
    obtain ⟨hne, rfl⟩ := hstep
    exact ⟨fun _ => h.removeFd hne, fun hn => absurd trivial hn⟩
  | addFdEx fd events callback arg accept =>
    simp only [fdStep, Option.ite_none_right_eq_some, Option.some.injEq] at hstep
    obtain ⟨⟨hne, hr⟩, rfl⟩ := hstep
    rcases Nat.lt_or_ge s.thread.fdCount maxFdEntries with hlt | hge
    · refine ⟨fun hs => h.addFdEx hne hr hlt (hs hlt) _ _ _ _, fun hn => ?_⟩
      exact h.not_dispatchExact_addFdEx hne hr hlt (fun hs => hn fun _ => hs) _ _ _ _
    · rw [nosSchedulerAddFdEx_full hge]
      exact ⟨fun _ => h, fun hn => absurd (fun hlt => absurd hlt (Nat.not_lt.mpr hge)) hn⟩

/-- Along a run, dispatch stays exact in every state reached if and only if no addition takes a
slot that a live registration still points at. -/
theorem dispatchExact_iff_reuseSafe (notifyFd : Fd) (calls : List FdCall) :
    Run.Always fdStep DispatchExact (init notifyFd) calls ↔
      Run.Guarded fdStep FdReuseSafe (init notifyFd) calls := by
  apply Run.always_iff_guarded (I := Inv) (fun s h => h.dispatchExact)
  · intro s call s' h hstep hd
    by_contra hn
    exact (fdStep_iff h hstep).2 (fun hs => hn ((fdStep_iff h hstep).1 hs)) hd
  · intro s call s' h hstep
    constructor
    · intro hd
      by_contra hn
      exact (fdStep_iff h hstep).2 hn hd
    · intro hs
      exact ((fdStep_iff h hstep).1 hs).dispatchExact
  · exact inv_init notifyFd

/-- A removal that takes the last occupied slot, or finds none. -/
def RemovesLast (s : FdSystem) : FdCall → Prop
  | .addFdEx .. => True
  | .removeFd fd => ∀ i, s.thread.findSlot fd = some i → i + 1 = s.thread.fdCount

/-- Every pointer in the epoll set leads to an occupied slot. -/
def PointersBelow (s : FdSystem) : Prop :=
  ∀ fd events slot, s.thread.epoll fd = some ⟨events, .fdEntry slot⟩ → slot < s.thread.fdCount

theorem PointersBelow.nextSlotUnused {s : FdSystem} (h : s.PointersBelow) :
    s.thread.NextSlotUnused := by
  rintro fd ⟨events, ptr⟩ he rfl
  exact Nat.lt_irrefl _ (h fd events _ he)

theorem PointersBelow.removeFd {s : FdSystem} (hi : s.Inv) (h : s.PointersBelow) {fd : Fd}
    (hlast : s.RemovesLast (.removeFd fd)) :
    PointersBelow ⟨(nosSchedulerRemoveFd s.thread fd).2, Function.update s.registered fd none⟩ := by
  intro fd' events slot he
  simp only [epoll_removeFd] at he
  have hne : fd' ≠ fd := by
    rintro rfl
    simp at he
  rw [Function.update_of_ne hne] at he
  have hlt := h fd' events slot he
  unfold nosSchedulerRemoveFd
  split
  · exact hlt
  · next i hfind =>
    have hi' := hlast i hfind
    have hslot : slot ≠ i := by
      rintro rfl
      have hnotify : fd' ≠ s.thread.notifyFd := by
        rintro rfl
        simp [hi.notify] at he
      obtain ⟨⟨callback, arg⟩, hr⟩ : ∃ x, s.registered fd' = some x := by
        rw [← Option.ne_none_iff_exists']
        intro hn
        simp [hi.epoll_none hnotify hn] at he
      obtain ⟨_, slot', he', hs⟩ := hi.pointer fd' callback arg hr
      simp only [he, Option.some.injEq, EpollEvent.mk.injEq, EntryPtr.fdEntry.injEq] at he'
      obtain ⟨-, rfl⟩ := he'
      exact hne (by rw [← findSlot_fd hfind, hs])
    simp only
    omega

theorem PointersBelow.addFdEx {s : FdSystem} (hi : s.Inv) (h : s.PointersBelow) {fd : Fd}
    (hne : fd ≠ s.thread.notifyFd) (hr : s.registered fd = none)
    (hlt : s.thread.fdCount < maxFdEntries) (events : ℕ) (callback : Option ℕ) (arg : ℕ)
    (accept : Bool) (registered : Fd → Option (Option ℕ × ℕ)) :
    PointersBelow ⟨(nosSchedulerAddFdEx s.thread fd events callback arg accept).2, registered⟩ := by
  rw [nosSchedulerAddFdEx_room hlt (hi.epoll_none hne hr)]
  intro fd' events' slot he
  cases accept
  · exact Nat.lt_succ_of_lt (h fd' events' slot (by simpa using he))
  · by_cases hfd : fd' = fd
    · subst hfd
      simp only [if_true, Function.update_self, Option.some.injEq, EpollEvent.mk.injEq,
        EntryPtr.fdEntry.injEq] at he
      obtain ⟨-, rfl⟩ := he
      exact Nat.lt_succ_self _
    · simp only [if_true, Function.update_of_ne hfd] at he
      exact Nat.lt_succ_of_lt (h fd' events' slot he)

theorem pointersBelow_init (notifyFd : Fd) : (init notifyFd).PointersBelow := by
  intro fd events slot he
  by_cases hfd : fd = notifyFd <;> simp [init, nosSchedulerInitFds, hfd] at he

/-- Removing only the entry added last keeps every addition safe. -/
theorem reuseSafe_of_removesLast (notifyFd : Fd) (calls : List FdCall)
    (h : Run.Guarded fdStep RemovesLast (init notifyFd) calls) :
    Run.Guarded fdStep FdReuseSafe (init notifyFd) calls := by
  refine h.mono (I := fun s => s.Inv ∧ s.PointersBelow) ?_ ?_
    ⟨inv_init notifyFd, pointersBelow_init notifyFd⟩
  · rintro s call s' ⟨hi, hp⟩ hlast hstep
    have hsafe : FdReuseSafe s call := by
      cases call with
      | addFdEx => exact fun _ => hp.nextSlotUnused
      | removeFd => trivial
    refine ⟨(fdStep_iff hi hstep).1 hsafe, ?_⟩
    cases call with
    | removeFd fd =>
      simp only [fdStep, Option.ite_none_right_eq_some, Option.some.injEq] at hstep
      obtain ⟨-, rfl⟩ := hstep
      exact hp.removeFd hi hlast
    | addFdEx fd events callback arg accept =>
      simp only [fdStep, Option.ite_none_right_eq_some, Option.some.injEq] at hstep
      obtain ⟨⟨hne, hr⟩, rfl⟩ := hstep
      rcases Nat.lt_or_ge s.thread.fdCount maxFdEntries with hlt | hge
      · exact hp.addFdEx hi hne hr hlt _ _ _ _ _
      · rw [nosSchedulerAddFdEx_full hge]
        exact hp
  · rintro s call ⟨-, hp⟩ -
    cases call with
    | addFdEx => exact fun _ => hp.nextSlotUnused
    | removeFd => trivial

/-- Descriptors 10, 11 and 12 are added, 10 is removed and 13 added: the event of 12 then runs
the callback of 13. -/
theorem dispatch_after_reuse :
    ∃ s, Run.exec fdStep (init 5)
        [.addFdEx 10 epollIn (some 110) 210 true, .addFdEx 11 epollIn (some 111) 211 true,
          .addFdEx 12 epollIn (some 112) 212 true, .removeFd 10,
          .addFdEx 13 epollIn (some 113) 213 true] = some s ∧
      s.registered 12 = some (some 112, 212) ∧
      (s.thread.epoll 12).map (fun ev => s.thread.dispatchEvent (some ev.ptr)) =
        some (.call 113 13 213) ∧
      ¬ s.DispatchExact := by
  refine ⟨_, rfl, by decide, by decide, fun h => ?_⟩
  obtain ⟨ev, he, -, hd⟩ := h 12 (some 112) 212 (by decide)
  have hev : ev = ⟨epollIn, .fdEntry 2⟩ := (Option.some.inj he).symm
  subst hev
  exact absurd hd (by decide)

end FdSystem

end GeminiNOS

import GeminiNOS.Ipc.Sockets

/-! # Socket ownership

Each open socket is registered with the management thread, for a connection that
holds it or for a passive entry. A run in which every `HELLO` meets a connection
without a socket, and every failed send is the last thing that looks at its socket,
keeps that correspondence.
-/

namespace GeminiNOS

open Foundations

namespace FdSystem

variable {fds fds' fds'' : FdSystem} {fd : Fd} {x y : Option (Option ℕ × ℕ)}

/-- The registration of one descriptor is another, and everything else is as before. -/
structure Replaced (fds : FdSystem) (fd : Fd) (x : Option (Option ℕ × ℕ)) (fds' : FdSystem) :
    Prop where
  inv : fds'.Inv
  registered : fds'.registered = Function.update fds.registered fd x
  epoll : ∀ fd', fd' ≠ fd → fds'.thread.epoll fd' = fds.thread.epoll fd'
  notifyFd : fds'.thread.notifyFd = fds.thread.notifyFd
  notifyEntry : fds'.thread.notifyEntry = fds.thread.notifyEntry

theorem Replaced.trans (h : fds.Replaced fd x fds') (h' : fds'.Replaced fd y fds'') :
    fds.Replaced fd y fds'' where
  inv := h'.inv
  registered := by rw [h'.registered, h.registered, Function.update_idem]
  epoll fd' hne := (h'.epoll fd' hne).trans (h.epoll fd' hne)
  notifyFd := h'.notifyFd.trans h.notifyFd
  notifyEntry := h'.notifyEntry.trans h.notifyEntry

theorem Inv.replaced_removeFd (h : fds.Inv) (hne : fd ≠ fds.thread.notifyFd) :
    fds.Replaced fd none (fds.removeFd fd) where
  inv := h.removeFd hne
  registered := rfl
  epoll fd' hfd := by
    simp only [FdSystem.removeFd, epoll_removeFd, Function.update_of_ne hfd]
  notifyFd := notifyFd_removeFd fds.thread fd
  notifyEntry := by
    simp only [FdSystem.removeFd, nosSchedulerRemoveFd]
    split <;> rfl

theorem Inv.replaced_closeFd (h : fds.Inv) (hne : fd ≠ fds.thread.notifyFd) :
    fds.Replaced fd none (fds.closeFd fd) where
  inv := by
    constructor
    · simpa only [closeFd, Function.update_of_ne hne.symm] using h.notify
    · simpa only [closeFd, Function.update_of_ne hne.symm] using h.notify_unregistered
    · intro fd' hne' hr
      simp only [closeFd, Function.update_apply] at hr ⊢
      split
      · rfl
      · rw [if_neg ‹_›] at hr
        exact h.unregistered fd' hne' hr
    · intro fd' callback arg hr
      simp only [closeFd, Function.update_apply] at hr ⊢
      split at hr
      · cases hr
      · rw [if_neg ‹_›]
        exact h.pointer fd' callback arg hr
  registered := rfl
  epoll fd' hfd := by simp only [closeFd, Function.update_of_ne hfd]
  notifyFd := rfl
  notifyEntry := rfl

theorem Inv.replaced_addFdEx (h : fds.Inv) (hne : fd ≠ fds.thread.notifyFd)
    (hnone : fds.registered fd = none) {accept : Bool} (hsafe : fds.AddSafe accept)
    (events callback arg : ℕ) :
    fds.Replaced fd (some (some callback, arg)) (fds.addFdEx fd events callback arg accept) := by
  obtain ⟨hroom, hslot, rfl⟩ := hsafe
  have hadd := nosSchedulerAddFdEx_room hroom (h.epoll_none hne hnone) events (some callback) arg
    true
  constructor
  · exact h.addFdEx hne hnone hroom hslot events (some callback) arg true
  · simp [FdSystem.addFdEx, hadd]
  · intro fd' hfd
    simp [FdSystem.addFdEx, hadd, Function.update_of_ne hfd]
  · simp [FdSystem.addFdEx, hadd]
  · simp [FdSystem.addFdEx, hadd]

theorem Inv.registeredAs (h : fds.Inv) {callback arg : ℕ}
    (hr : fds.registered fd = some (some callback, arg)) :
    fds.thread.RegisteredAs fd callback arg := by
  obtain ⟨events, slot, he, hs⟩ := h.pointer fd (some callback) arg hr
  simp [FdTable.RegisteredAs, he, FdTable.entryAt, hs]

theorem PointersBelow.addSafe (h : fds.PointersBelow) (hroom : fds.thread.fdCount < maxFdEntries) :
    fds.AddSafe true :=
  ⟨hroom, h.nextSlotUnused, rfl⟩

theorem PointersBelow.add (h : fds.PointersBelow) (hinv : fds.Inv)
    (hne : fd ≠ fds.thread.notifyFd) (hnone : fds.registered fd = none)
    (hroom : fds.thread.fdCount < maxFdEntries) (events callback arg : ℕ) :
    (fds.addFdEx fd events callback arg true).PointersBelow ∧
      (fds.addFdEx fd events callback arg true).Inv :=
  ⟨h.addFdEx hinv hne hnone hroom events (some callback) arg true _,
    (hinv.replaced_addFdEx hne hnone (h.addSafe hroom) events callback arg).inv⟩

end FdSystem

namespace NosIpcConn

variable {B : Type*} {conn conn' : NosIpcConn B} {outcomes : List SendOutcome}

/-- A call of `nos_ipc_process_tx` leaves the connection with its socket, unless a send fails. -/
theorem nosIpcProcessTx_cases (h : conn.nosIpcProcessTx outcomes = some conn') :
    (.failed ∉ outcomes ∧ conn'.fd = conn.fd ∧ conn'.isConnected = conn.isConnected) ∨
    (.failed ∈ outcomes ∧ ¬ conn.tx.IsEmpty ∧ conn'.fd = -1 ∧ conn'.isConnected = false) := by
  obtain ⟨n, hn, hends⟩ := exists_txEnds h
  cases hends with
  | drained hend => exact Or.inl ⟨by simp, relieve_fd⟩
  | stopped hend => exact Or.inl ⟨by simp, rfl, rfl⟩
  | broken hend =>
    have hused := used_afterSends hn
    have hpos : 0 < (conn.afterSends n).used := by
      rw [used_eq, Nat.pos_iff_ne_zero, ne_eq, ← RingBuffer.isEmpty_iff]
      exact hend
    exact Or.inr ⟨by simp, not_isEmpty_of_lt_used (hpos.trans_le (by omega)), rfl, rfl⟩

end NosIpcConn

namespace IpcNode

variable {B : Type*} {s t : IpcNode B} {fd : Fd} {c callback arg : ℕ}

def RegisteredFor (s : IpcNode B) (fd : Fd) (x : Option ℕ × ℕ) : Prop :=
  x = (some acceptCallback, mgmtThread) ∨ x = (some passiveCallback, mgmtThread) ∨
    ∃ c < s.connCount, x = (some eventCallback, c) ∧ (s.conns c).link.fd = fd

/-- The open sockets are the registered ones, each for a passive entry or for the connection that
holds it. -/
structure Sound (s : IpcNode B) : Prop where
  fds : s.fds.Inv
  notifyEntry : s.fds.thread.notifyEntry = ⟨s.fds.thread.notifyFd, none, 0⟩
  opened : ∀ fd, s.opened fd = true ↔ ∃ x, s.fds.registered fd = some x
  registeredFor : ∀ fd x, s.fds.registered fd = some x → 0 ≤ fd ∧ s.RegisteredFor fd x
  isConnected : ∀ c < s.connCount,
    (s.conns c).link.isConnected = true ↔ 0 ≤ (s.conns c).link.fd
  held : ∀ c < s.connCount, 0 ≤ (s.conns c).link.fd →
    s.fds.registered (s.conns c).link.fd = some (some eventCallback, c)
  batch : ∀ event ∈ s.batch, ∃ events, s.fds.thread.epoll event.1 = some ⟨events, event.2⟩
  nodup : (s.batch.map Prod.fst).Nodup
  receiving : ∀ fd c, s.receiving = some (fd, c) →
    s.fds.registered fd = some (some eventCallback, c) ∧ fd ∉ s.batch.map Prod.fst
  senders : ∀ c, 0 < s.senders c → c < s.connCount
  closes : ∀ call ∈ s.closes, call.isOpen = true ∧ call.isOwned = true
  disconnects : ∀ mark ∈ s.disconnects, mark.closed = mark.current

theorem Sound.socketsOwned (h : s.Sound) : s.SocketsOwned where
  closes := h.closes
  disconnects := h.disconnects
  connected c hc hconn := by
    have hr := h.held c hc ((h.isConnected c hc).mp hconn)
    exact ⟨(h.opened _).mpr ⟨_, hr⟩, h.fds.registeredAs hr⟩
  owned fd hopen := by
    obtain ⟨x, hr⟩ := (h.opened fd).mp hopen
    rcases (h.registeredFor fd x hr).2 with rfl | rfl | ⟨c, hc, rfl, hfd⟩
    · exact Or.inr (Or.inr (h.fds.registeredAs hr))
    · exact Or.inr (Or.inl (h.fds.registeredAs hr))
    · exact Or.inl ⟨c, hc, hfd⟩

theorem Sound.ne_notifyFd (h : s.Sound) {x : Option ℕ × ℕ} (hr : s.fds.registered fd = some x) :
    fd ≠ s.fds.thread.notifyFd :=
  FdSystem.ne_notifyFd h.fds.notify_unregistered hr

theorem Sound.conn_of_registered (h : s.Sound)
    (hr : s.fds.registered fd = some (some eventCallback, c)) :
    c < s.connCount ∧ (s.conns c).link.fd = fd ∧ 0 ≤ fd := by
  obtain ⟨hpos, h | h | ⟨c', hc, h, hfd⟩⟩ := h.registeredFor fd _ hr
  · cases h
  · cases h
  · cases h
    exact ⟨hc, hfd, hpos⟩

theorem Sound.fresh (h : s.Sound) (hfresh : s.Fresh fd) : s.fds.registered fd = none := by
  by_contra hne
  obtain ⟨x, hx⟩ := Option.ne_none_iff_exists'.mp hne
  have hopen := (h.opened fd).mpr ⟨x, hx⟩
  rw [hfresh.1] at hopen
  cases hopen

theorem Sound.notMem_batch (h : s.Sound) (hnone : s.fds.registered fd = none)
    (hne : fd ≠ s.fds.thread.notifyFd) : fd ∉ s.batch.map Prod.fst := by
  intro hmem
  obtain ⟨event, hevent, rfl⟩ := List.mem_map.mp hmem
  obtain ⟨events, he⟩ := h.batch event hevent
  rw [h.fds.epoll_none hne hnone] at he
  cases he

theorem Sound.fd_ne (h : s.Sound) (hc : c < s.connCount) (hfd : 0 ≤ fd)
    (hr : s.fds.registered fd ≠ some (some eventCallback, c)) : (s.conns c).link.fd ≠ fd := by
  rintro rfl
  exact hr (h.held c hc hfd)

theorem Sound.keep (h : s.Sound) (hfds : t.fds = s.fds) (hopened : t.opened = s.opened)
    (hcount : s.connCount ≤ t.connCount)
    (hold : ∀ c < s.connCount, (t.conns c).link.fd = (s.conns c).link.fd ∧
      (t.conns c).link.isConnected = (s.conns c).link.isConnected)
    (hnew : ∀ c < t.connCount, s.connCount ≤ c → (t.conns c).link.fd < 0 ∧
      (t.conns c).link.isConnected = false)
    (hbatch : t.batch.Sublist s.batch)
    (hreceiving : ∀ x, t.receiving = some x → s.receiving = some x)
    (hsenders : ∀ c, 0 < t.senders c → c < t.connCount)
    (hcloses : t.closes = s.closes) (hdisconnects : t.disconnects = s.disconnects) :
    t.Sound where
  fds := hfds ▸ h.fds
  notifyEntry := hfds ▸ h.notifyEntry
  opened := by rw [hfds, hopened]; exact h.opened
  registeredFor fd x hr := by
    rw [hfds] at hr
    refine (h.registeredFor fd x hr).imp_right (Or.imp_right (Or.imp_right ?_))
    rintro ⟨c, hc, rfl, hfd⟩
    exact ⟨c, hc.trans_le hcount, rfl, (hold c hc).1.trans hfd⟩
  isConnected c hc := by
    rcases Nat.lt_or_ge c s.connCount with hlt | hge
    · rw [(hold c hlt).1, (hold c hlt).2]
      exact h.isConnected c hlt
    · obtain ⟨hfd, hconn⟩ := hnew c hc hge
      simp [hconn, hfd]
  held c hc hfd := by
    rcases Nat.lt_or_ge c s.connCount with hlt | hge
    · rw [(hold c hlt).1] at hfd ⊢
      rw [hfds]
      exact h.held c hlt hfd
    · exact absurd hfd (Int.not_le.mpr (hnew c hc hge).1)
  batch event hevent := hfds ▸ h.batch event (hbatch.subset hevent)
  nodup := h.nodup.sublist (hbatch.map _)
  receiving fd c hr := by
    obtain ⟨hreg, hmem⟩ := h.receiving fd c (hreceiving _ hr)
    exact ⟨hfds ▸ hreg, fun hfd => hmem ((hbatch.map _).subset hfd)⟩
  senders := hsenders
  closes := hcloses ▸ h.closes
  disconnects := hdisconnects ▸ h.disconnects

theorem Sound.keepLinks (h : s.Sound) (hfds : t.fds = s.fds) (hopened : t.opened = s.opened)
    (hcount : t.connCount = s.connCount)
    (hlinks : ∀ c, (t.conns c).link.fd = (s.conns c).link.fd ∧
      (t.conns c).link.isConnected = (s.conns c).link.isConnected)
    (hbatch : t.batch.Sublist s.batch)
    (hreceiving : ∀ x, t.receiving = some x → s.receiving = some x)
    (hsenders : ∀ c, 0 < t.senders c → c < t.connCount)
    (hcloses : t.closes = s.closes) (hdisconnects : t.disconnects = s.disconnects) :
    t.Sound := by
  apply h.keep hfds hopened hcount.ge _ _ hbatch hreceiving hsenders hcloses hdisconnects
  · exact fun c _ => hlinks c
  · intro c hc hle
    exact absurd (hcount ▸ hc) (Nat.not_lt.mpr hle)

/-- What becomes of a connection when the registration of a descriptor is replaced. It has to do
with another descriptor, or it takes or loses this one. -/
def LinkReplaced (fd : Fd) (x : Option (Option ℕ × ℕ)) (c : ℕ) (old new : NosIpcConn B) : Prop :=
  (old.fd ≠ fd ∧ new.fd = old.fd ∧ new.isConnected = old.isConnected) ∨
    ((old.fd = fd ∨ old.fd < 0) ∧ (new.isConnected = true ↔ 0 ≤ new.fd) ∧
      (0 ≤ new.fd → new.fd = fd ∧ x = some (some eventCallback, c)))

section Replace

variable {fds : FdSystem} {x : Option (Option ℕ × ℕ)} {conns : ℕ → IpcConn B}
  {closes : List CloseCall} {disconnects : List Disconnect}

/-- One socket changes its owner, and with it the connections that have to do with it. -/
theorem Sound.replace (h : s.Sound) (hrep : s.fds.Replaced fd x fds) (hwait : s.NotWaiting fd)
    (hconns : ∀ c < s.connCount, LinkReplaced fd x c (s.conns c).link (conns c).link)
    (hpos : 0 ≤ fd) (hfor : ∀ y, x = some y → RegisteredFor { s with conns := conns } fd y)
    (hcloses : ∀ call ∈ closes, call.isOpen = true ∧ call.isOwned = true)
    (hdisconnects : ∀ mark ∈ disconnects, mark.closed = mark.current) :
    Sound { s with
      fds := fds
      opened := Function.update s.opened fd x.isSome
      conns := conns
      closes := closes
      disconnects := disconnects } where
  fds := hrep.inv
  notifyEntry := by simpa only [hrep.notifyEntry, hrep.notifyFd] using h.notifyEntry
  opened fd' := by
    simp only [hrep.registered, Function.update_apply]
    split
    · exact Option.isSome_iff_exists
    · exact h.opened fd'
  registeredFor fd' y hr := by
    simp only [hrep.registered, Function.update_apply] at hr
    split at hr
    · subst fd'
      exact ⟨hpos, hfor y hr⟩
    · rename_i hne
      obtain ⟨hpos', hfor'⟩ := h.registeredFor fd' y hr
      refine ⟨hpos', hfor'.imp_right (Or.imp_right ?_)⟩
      rintro ⟨c, hc, rfl, rfl⟩
      rcases hconns c hc with ⟨-, hfd, -⟩ | ⟨hfd | hfd, -⟩
      · exact ⟨c, hc, rfl, hfd⟩
      · exact absurd hfd hne
      · exact absurd hpos' (Int.not_le.mpr hfd)
  isConnected c hc := by
    rcases hconns c hc with ⟨-, hfd, hconn⟩ | ⟨-, hiff, -⟩
    · rw [hfd, hconn]
      exact h.isConnected c hc
    · exact hiff
  held c hc hpos := by
    simp only [hrep.registered]
    rcases hconns c hc with ⟨hne, hfd, -⟩ | ⟨-, -, hnew⟩
    · rw [hfd] at hpos ⊢
      rw [Function.update_of_ne hne]
      exact h.held c hc hpos
    · obtain ⟨hfd, hx⟩ := hnew hpos
      rw [hfd, Function.update_self, hx]
  batch event hevent := by
    have hne : event.1 ≠ fd := fun he => hwait.1 (he ▸ List.mem_map_of_mem hevent)
    rw [hrep.epoll _ hne]
    exact h.batch event hevent
  nodup := h.nodup
  receiving fd' c hr := by
    have hne : fd' ≠ fd := by
      rintro rfl
      exact hwait.2 c hr
    rw [hrep.registered, Function.update_of_ne hne]
    exact h.receiving fd' c hr
  senders := h.senders
  closes := hcloses
  disconnects := hdisconnects

theorem Sound.notWaiting (h : s.Sound) (hnone : s.fds.registered fd = none)
    (hne : fd ≠ s.fds.thread.notifyFd) : s.NotWaiting fd := by
  refine ⟨h.notMem_batch hnone hne, fun c hr => ?_⟩
  rw [(h.receiving fd c hr).1] at hnone
  cases hnone

theorem Sound.closes_append (h : s.Sound) (fd : Fd) :
    ∀ call ∈ s.closes ++ [⟨fd, true, true⟩], call.isOpen = true ∧ call.isOwned = true := by
  intro call hcall
  rcases List.mem_append.mp hcall with hcall | hcall
  · exact h.closes call hcall
  · obtain rfl := List.mem_singleton.mp hcall
    exact ⟨rfl, rfl⟩

theorem Sound.unlinked (h : s.Sound) (hpos : 0 ≤ fd)
    (hr : ∀ c, s.fds.registered fd ≠ some (some eventCallback, c)) :
    ∀ c < s.connCount, LinkReplaced fd x c (s.conns c).link (s.conns c).link :=
  fun c hc => Or.inl ⟨h.fd_ne hc hpos (hr c), rfl, rfl⟩

theorem Sound.linked (h : s.Sound) (hc : c < s.connCount) {link : NosIpcConn B}
    (hold : (s.conns c).link.fd = fd ∨ (s.conns c).link.fd < 0)
    (hconn : link.isConnected = true ↔ 0 ≤ link.fd)
    (hnew : 0 ≤ link.fd → link.fd = fd ∧ x = some (some eventCallback, c)) (hpos : 0 ≤ fd)
    (hr : ∀ c', c' ≠ c → s.fds.registered fd ≠ some (some eventCallback, c')) :
    ∀ c' < s.connCount, LinkReplaced fd x c' (s.conns c').link
      ((s.setLink c link).conns c').link := by
  intro c' hc'
  rcases eq_or_ne c' c with rfl | hne
  · simp only [setLink, Function.update_self]
    exact Or.inr ⟨hold, hconn, hnew⟩
  · simp only [setLink, Function.update_of_ne hne]
    exact Or.inl ⟨h.fd_ne hc' hpos (hr c' hne), rfl, rfl⟩

theorem Sound.addPassive (h : s.Sound) {fd : ℕ} (hfresh : s.Fresh fd)
    (hcb : callback = acceptCallback ∨ callback = passiveCallback) {registers : Bool}
    (hsafe : s.fds.AddSafe registers) (events : ℕ) :
    ((s.openSocket fd).addFd fd events callback mgmtThread registers).Sound := by
  have hnone := h.fresh hfresh
  have hrep := h.fds.replaced_addFdEx hfresh.2 hnone hsafe events callback mgmtThread
  apply h.replace hrep (h.notWaiting hnone hfresh.2) _ (Int.natCast_nonneg fd) _ h.closes
    h.disconnects
  · exact h.unlinked (Int.natCast_nonneg fd) (by simp [hnone])
  · rintro _ ⟨⟩
    rcases hcb with rfl | rfl
    · exact Or.inl rfl
    · exact Or.inr (Or.inl rfl)

theorem Sound.openClose (h : s.Sound) {fd : ℕ} (hfresh : s.Fresh fd) :
    ((s.openSocket fd).close fd true).Sound := by
  have hnone := h.fresh hfresh
  have hsound := h.replace (h.fds.replaced_closeFd hfresh.2) (h.notWaiting hnone hfresh.2)
    (h.unlinked (Int.natCast_nonneg fd) (by simp [hnone])) (Int.natCast_nonneg fd)
    (by rintro y ⟨⟩) (h.closes_append fd) h.disconnects
  simpa [close, openSocket] using hsound

theorem Sound.take (h : s.Sound) (hrep : s.fds.Replaced fd (some (some eventCallback, c)) fds)
    (hwait : s.NotWaiting fd) (hc : c < s.connCount) (hpos : 0 ≤ fd)
    (hold : (s.conns c).link.fd < 0) {link : NosIpcConn B} (hfd : link.fd = fd)
    (hconn : link.isConnected = true)
    (hr : ∀ c', s.fds.registered fd ≠ some (some eventCallback, c')) :
    Sound { s.setLink c link with fds := fds, opened := Function.update s.opened fd true } := by
  apply h.replace hrep hwait _ hpos _ h.closes h.disconnects
  · apply h.linked hc (Or.inr hold) _ _ hpos fun c' _ => hr c'
    · simp [hconn, hfd, hpos]
    · exact fun _ => ⟨hfd, rfl⟩
  · rintro _ ⟨⟩
    refine Or.inr (Or.inr ⟨c, hc, rfl, ?_⟩)
    simp [setLink, hfd]

theorem Sound.drop (h : s.Sound) (hrep : s.fds.Replaced fd none fds) (hwait : s.NotWaiting fd)
    (hr : s.fds.registered fd = some (some eventCallback, c)) {link : NosIpcConn B}
    (hfd : link.fd < 0) (hconn : link.isConnected = false) :
    Sound { s.setLink c link with
      fds := fds
      opened := Function.update s.opened fd false
      closes := s.closes ++ [⟨fd, true, true⟩]
      disconnects := s.disconnects ++ [⟨c, (s.conns c).link.fd, fd⟩] } := by
  obtain ⟨hc, hheld, hpos⟩ := h.conn_of_registered hr
  apply h.replace hrep hwait _ hpos (by rintro y ⟨⟩) (h.closes_append fd)
  · rintro mark hmark
    rcases List.mem_append.mp hmark with hmark | hmark
    · exact h.disconnects mark hmark
    · obtain rfl := List.mem_singleton.mp hmark
      exact hheld.symm
  · apply h.linked hc (Or.inl hheld) _ _ hpos
    · rintro c' hne heq
      rw [hr] at heq
      cases heq
      exact hne rfl
    · simp [hconn, hfd]
    · exact fun hle => absurd hle (Int.not_le.mpr hfd)

end Replace

theorem Sound.setLink (h : s.Sound) {link : NosIpcConn B} (hfd : link.fd = (s.conns c).link.fd)
    (hconn : link.isConnected = (s.conns c).link.isConnected) : (s.setLink c link).Sound := by
  refine h.keepLinks rfl rfl rfl ?_ (List.Sublist.refl _) (fun _ hr => hr) h.senders rfl rfl
  intro c'
  simp only [IpcNode.setLink, Function.update_apply]
  split
  · subst c'
    exact ⟨hfd, hconn⟩
  · exact ⟨rfl, rfl⟩

theorem Sound.setSenders (h : s.Sound) {senders : ℕ → ℕ}
    (hsenders : ∀ c, 0 < senders c → c < s.connCount) : Sound { s with senders := senders } :=
  h.keepLinks rfl rfl rfl (fun _ => ⟨rfl, rfl⟩) (List.Sublist.refl _) (fun _ hr => hr) hsenders
    rfl rfl

theorem Sound.nextEvent (h : s.Sound) : s.nextEvent.Sound :=
  h.keepLinks rfl rfl rfl (fun _ => ⟨rfl, rfl⟩) (List.tail_sublist _) (fun _ hr => hr) h.senders
    rfl rfl

theorem Sound.received (h : s.Sound) : Sound { s with receiving := none } :=
  h.keepLinks rfl rfl rfl (fun _ => ⟨rfl, rfl⟩) (List.Sublist.refl _) (by rintro x ⟨⟩) h.senders
    rfl rfl

theorem Sound.rename (h : s.Sound) (c : ℕ) (name : String) : Sound { s with
    conns := Function.update s.conns c { s.conns c with nodeName := name } } := by
  refine h.keepLinks rfl rfl rfl ?_ (List.Sublist.refl _) (fun _ hr => hr) h.senders rfl rfl
  intro c'
  simp only [Function.update_apply]
  split
  · subst c'
    exact ⟨rfl, rfl⟩
  · exact ⟨rfl, rfl⟩

/-- The connection found or made by `get_or_create_conn` is one of the node, whose sockets stay as
they are. -/
theorem Sound.getOrCreateConn [Inhabited B] (h : s.Sound) {nodeName udsPath : Option String}
    (hget : s.getOrCreateConn nodeName udsPath = some (c, t)) :
    t.Sound ∧ c < t.connCount ∧ t.fds = s.fds ∧ t.opened = s.opened ∧ t.batch = s.batch ∧
      t.receiving = s.receiving := by
  unfold IpcNode.getOrCreateConn at hget
  split at hget
  · obtain ⟨rfl, rfl⟩ := Prod.mk.inj (Option.some.inj hget)
    have hmem := List.mem_of_find?_eq_some ‹_›
    exact ⟨h, List.mem_range.mp hmem, rfl, rfl, rfl, rfl⟩
  · simp only [Option.ite_none_left_eq_some, Option.some.injEq, Prod.mk.injEq] at hget
    obtain ⟨-, rfl, rfl⟩ := hget
    refine ⟨?_, Nat.lt_succ_self _, rfl, rfl, rfl, rfl⟩
    refine h.keep rfl rfl (Nat.le_succ _) ?_ ?_ (List.Sublist.refl _) (fun _ hr => hr) ?_ rfl rfl
    · intro c hc
      simp [Function.update_of_ne hc.ne]
    · intro c hc hle
      obtain rfl := Nat.le_antisymm (Nat.lt_succ_iff.mp hc) hle
      simp [IpcConn.create, NosIpcConn.create]
    · exact fun c hc => (h.senders c hc).trans (Nat.lt_succ_self _)

theorem Sound.connectSocket (h : s.Sound) (hc : c < s.connCount) {call : EnqueueCall B}
    (hconnect : s.connectSocket c call = some t)
    (hsafe : (s.conns c).link.Connects call.env → s.fds.AddSafe call.registers) :
    (t.setLink c ((s.conns c).link.nosIpcSendEnqueueEx call.env call.buf).2).Sound := by
  rcases NosIpcConn.link_enqueue (s.conns c).link call.env call.buf with
    ⟨hnot, hfd, hconn⟩ | ⟨fd, hre, hconnects, hfd, hconn⟩
  · unfold IpcNode.connectSocket at hconnect
    split at hconnect
    · split at hconnect <;> rename_i heq
      · obtain rfl := Option.some.inj hconnect
        exact h.setLink hfd hconn
      · simp only [Option.ite_none_right_eq_some, Option.some.injEq] at hconnect
        obtain ⟨hfresh, rfl⟩ := hconnect
        exact (h.openClose hfresh).setLink hfd hconn
      · exact absurd ⟨‹_›, by simp [heq, ConnectOutcome.opens]⟩ hnot
    · obtain rfl := Option.some.inj hconnect
      exact h.setLink hfd hconn
  · have hsafe := hsafe ⟨hre, by simp [hconnects, ConnectOutcome.opens]⟩
    unfold IpcNode.connectSocket at hconnect
    simp only [if_pos hre, hconnects, Option.ite_none_right_eq_some, Option.some.injEq] at hconnect
    obtain ⟨hfresh, rfl⟩ := hconnect
    have hnone := h.fresh hfresh
    exact h.take (h.fds.replaced_addFdEx hfresh.2 hnone hsafe connEvents eventCallback c)
      (h.notWaiting hnone hfresh.2) hc (Int.natCast_nonneg fd) hre.1 hfd hconn (by simp [hnone])

theorem connCount_connectSocket {call : EnqueueCall B} (h : s.connectSocket c call = some t) :
    t.connCount = s.connCount := by
  unfold IpcNode.connectSocket at h
  split at h
  · split at h
    · obtain rfl := Option.some.inj h
      rfl
    · obtain ⟨-, h⟩ := Option.ite_none_right_eq_some.mp h
      obtain rfl := Option.some.inj h
      rfl
    · obtain ⟨-, h⟩ := Option.ite_none_right_eq_some.mp h
      obtain rfl := Option.some.inj h
      rfl
  · obtain rfl := Option.some.inj h
    rfl

theorem Sound.nosIpcSendEnqueueEx [Inhabited B] (h : s.Sound) {call : EnqueueCall B}
    (hcall : s.nosIpcSendEnqueueEx call = some t) (hsafe : s.OwnershipSafe (.enqueue call)) :
    t.Sound := by
  unfold IpcNode.nosIpcSendEnqueueEx at hcall
  split at hcall
  · obtain rfl := Option.some.inj hcall
    exact h
  · rename_i c s₁ hget
    obtain ⟨h₁, hc, hfds, -⟩ := h.getOrCreateConn hget
    obtain ⟨s₂, hconnect, rfl⟩ := Option.map_eq_some_iff.mp hcall
    have h₂ := h₁.connectSocket hc hconnect fun hconnects => hfds ▸ hsafe c s₁ hget hconnects
    refine h₂.setSenders fun c' hc' => ?_
    change c' < s₂.connCount
    rw [connCount_connectSocket hconnect]
    split at hc'
    · rw [Function.update_apply] at hc'
      split at hc'
      · exact ‹c' = c› ▸ hc
      · exact h₁.senders c' hc'
    · exact h₁.senders c' hc'

/-- A call of `nos_ipc_process_tx` that finds the socket of its connection, and whose sends fail
only while no event of the socket waits. -/
theorem Sound.nosIpcProcessTx (h : s.Sound) (hc : c < s.connCount) {outcomes : List SendOutcome}
    (hrun : s.nosIpcProcessTx c outcomes = some t)
    (hfd : ¬ (s.conns c).link.tx.IsEmpty → 0 ≤ (s.conns c).link.fd)
    (hwait : .failed ∈ outcomes → s.NotWaiting (s.conns c).link.fd) : t.Sound := by
  simp only [IpcNode.nosIpcProcessTx, Option.ite_none_right_eq_some] at hrun
  obtain ⟨-, hrun⟩ := hrun
  obtain ⟨link, hlink, rfl⟩ := Option.map_eq_some_iff.mp hrun
  rcases NosIpcConn.nosIpcProcessTx_cases hlink with
    ⟨hmem, hsame, hconn⟩ | ⟨hmem, hempty, hgone, hconn⟩
  · rw [if_neg hmem]
    exact h.setLink hsame hconn
  · have hr := h.held c hc (hfd hempty)
    have hopen := (h.opened _).mpr ⟨_, hr⟩
    have hneg : link.fd < 0 := by rw [hgone]; decide
    have hdrop := h.drop (h.fds.replaced_closeFd (h.ne_notifyFd hr)) (hwait hmem) hr hneg hconn
    rw [if_pos hmem]
    simpa [IpcNode.close, IpcNode.disconnect, IpcNode.setLink, hopen] using hdrop

/-- The event of a callback is that of a descriptor registered for it, and it is the only event of
that descriptor in the batch. -/
theorem Sound.runs (h : s.Sound) (hruns : s.Runs (.call callback fd arg)) :
    s.fds.registered fd = some (some callback, arg) ∧ s.nextEvent.NotWaiting fd ∧
      s.receiving = none := by
  obtain ⟨hreceiving, hruns⟩ := hruns
  obtain ⟨event, hhead, hdispatch⟩ := Option.map_eq_some_iff.mp hruns
  obtain ⟨rest, hbatch⟩ := List.head?_eq_some_iff.mp hhead
  have hnodup := h.nodup
  rw [hbatch, List.map_cons, List.nodup_cons] at hnodup
  obtain ⟨events, he⟩ := h.batch event (hbatch ▸ List.mem_cons_self)
  have hcall : s.fds.registered event.1 = some (some callback, arg) ∧ event.1 = fd := by
    rcases eq_or_ne event.1 s.fds.thread.notifyFd with hnotify | hnotify
    · rw [hnotify, h.fds.notify] at he
      obtain ⟨-, hptr⟩ := EpollEvent.mk.inj (Option.some.inj he)
      simp [FdTable.dispatchEvent, ← hptr, FdTable.entryAt, h.notifyEntry, dispatchEntry]
        at hdispatch
    · cases hr : s.fds.registered event.1 with
      | none =>
        rw [h.fds.epoll_none hnotify hr] at he
        cases he
      | some x =>
        obtain ⟨ev, he', -, hexact⟩ := h.fds.dispatchExact event.1 x.1 x.2 hr
        obtain rfl := Option.some.inj (he'.symm.trans he)
        rw [hdispatch] at hexact
        split at hexact
        · rename_i hx
          obtain ⟨rfl, rfl, rfl⟩ := Dispatch.call.inj hexact
          exact ⟨by rw [← hx], rfl⟩
        · cases hexact
  obtain ⟨hr, rfl⟩ := hcall
  refine ⟨hr, ⟨?_, ?_⟩, hreceiving⟩
  · simpa [IpcNode.nextEvent, hbatch] using hnodup.1
  · rintro c hc
    rw [IpcNode.nextEvent, hreceiving] at hc
    cases hc

theorem setLink_of_nosIpcProcessTx {outcomes : List SendOutcome}
    (hrun : s.nosIpcProcessTx c outcomes = some t) (hmem : .failed ∉ outcomes) :
    ∃ link, t = s.setLink c link := by
  simp only [IpcNode.nosIpcProcessTx, Option.ite_none_right_eq_some, if_neg hmem] at hrun
  obtain ⟨link, -, rfl⟩ := Option.map_eq_some_iff.mp hrun.2
  exact ⟨link, rfl⟩

theorem Sound.receive (h : s.Sound) (hr : s.fds.registered fd = some (some eventCallback, c))
    (hmem : fd ∉ s.batch.map Prod.fst) : Sound { s with receiving := some (fd, c) } := by
  constructor
  · exact h.fds
  · exact h.notifyEntry
  · exact h.opened
  · exact h.registeredFor
  · exact h.isConnected
  · exact h.held
  · exact h.batch
  · exact h.nodup
  · rintro _ _ ⟨⟩
    exact ⟨hr, hmem⟩
  · exact h.senders
  · exact h.closes
  · exact h.disconnects

theorem Sound.epollWait (h : s.Sound) (hreceiving : s.receiving = none) {reported : List Fd}
    (hnodup : reported.Nodup) : Sound { s with
      batch := reported.filterMap (fun fd =>
        (s.fds.thread.epoll fd).map fun ev => (fd, ev.ptr)) } where
  fds := h.fds
  notifyEntry := h.notifyEntry
  opened := h.opened
  registeredFor := h.registeredFor
  isConnected := h.isConnected
  held := h.held
  batch event hevent := by
    obtain ⟨fd, -, hmap⟩ := List.mem_filterMap.mp hevent
    obtain ⟨ev, he, rfl⟩ := Option.map_eq_some_iff.mp hmap
    exact ⟨ev.events, he⟩
  nodup := by
    refine hnodup.sublist ?_
    induction reported with
    | nil => exact List.Sublist.refl _
    | cons fd reported ih =>
      have ih := ih (List.nodup_cons.mp hnodup).2
      cases he : s.fds.thread.epoll fd with
      | none => simpa [List.filterMap_cons, he] using ih.cons fd
      | some ev => simpa [List.filterMap_cons, he] using ih
  receiving fd c hr := by
    rw [hreceiving] at hr
    cases hr
  senders := h.senders
  closes := h.closes
  disconnects := h.disconnects

theorem Sound.replaced_removeClose (h : s.Sound) {x : Option ℕ × ℕ}
    (hr : s.fds.registered fd = some x) :
    s.fds.Replaced fd none ((s.fds.removeFd fd).closeFd fd) := by
  have hremove := h.fds.replaced_removeFd (h.ne_notifyFd hr)
  refine hremove.trans (hremove.inv.replaced_closeFd ?_)
  rw [hremove.notifyFd]
  exact h.ne_notifyFd hr

theorem Sound.recvConn [Inhabited B] (h : s.Sound)
    (hr : s.fds.registered fd = some (some eventCallback, c)) (hwait : s.NotWaiting fd)
    (registers : Bool) (outcome : RecvOutcome) :
    (s.nosIpcRecvHandler fd (some c) registers outcome).Sound := by
  cases outcome with
  | dropLink =>
    obtain ⟨-, hheld, -⟩ := h.conn_of_registered hr
    have hopen := (h.opened fd).mpr ⟨_, hr⟩
    have hgone : (s.conns c).link.linkGone.fd < 0 := by simp [NosIpcConn.linkGone]
    have hdrop := h.drop (h.replaced_removeClose hr) hwait hr hgone rfl
    simpa [IpcNode.nosIpcRecvHandler, IpcNode.close, IpcNode.disconnect, IpcNode.setLink,
      IpcNode.removeFd, hopen, hheld] using hdrop
  | hello payload => exact h.rename c _
  | again | noBuffer | partialRecv | shmEvent | message => exact h

/-- The handler on a passive entry, where a `HELLO` names a connection without a socket. -/
theorem Sound.recvPassive [Inhabited B] (h : s.Sound)
    (hr : s.fds.registered fd = some (some passiveCallback, mgmtThread))
    (hwait : s.NotWaiting fd) {registers : Bool} {outcome : RecvOutcome}
    (hsafe : ∀ payload, outcome = .hello payload → ∀ c t,
      s.getOrCreateConn (some (remoteName payload)) none = some (c, t) →
        (t.conns c).link.fd < 0 ∧ (s.fds.removeFd fd).AddSafe registers) :
    (s.nosIpcRecvHandler fd none registers outcome).Sound := by
  have hopen := (h.opened fd).mpr ⟨_, hr⟩
  have hpos := (h.registeredFor fd _ hr).1
  have hother : ∀ c, s.fds.registered fd ≠ some (some eventCallback, c) := by
    rintro c hc
    rw [hr] at hc
    cases hc
  cases outcome with
  | dropLink =>
    have hdrop := h.replace (h.replaced_removeClose hr) hwait (h.unlinked hpos hother) hpos
      (by rintro y ⟨⟩) (h.closes_append fd) h.disconnects
    simpa [IpcNode.nosIpcRecvHandler, IpcNode.close, IpcNode.removeFd, hopen,
      h.fds.registeredAs hr] using hdrop
  | hello payload =>
    simp only [IpcNode.nosIpcRecvHandler]
    split
    · exact h
    · rename_i c t hget
      obtain ⟨hfree, hadd⟩ := hsafe payload rfl c t hget
      obtain ⟨ht, hc, hfds, hopened, hbatch, hreceiving⟩ := h.getOrCreateConn hget
      rw [← hfds] at hr hother hadd
      have hremove := ht.fds.replaced_removeFd (ht.ne_notifyFd hr)
      have hne : fd ≠ (t.fds.removeFd fd).thread.notifyFd := by
        rw [hremove.notifyFd]
        exact ht.ne_notifyFd hr
      have hnone : (t.fds.removeFd fd).registered fd = none := by
        rw [hremove.registered, Function.update_self]
      have hrep := hremove.trans
        (hremove.inv.replaced_addFdEx hne hnone hadd connEvents eventCallback c)
      have hwait' : t.NotWaiting fd := by
        rw [NotWaiting, hbatch, hreceiving]
        exact hwait
      have hlink : NosIpcConn.fd { (t.conns c).link with fd := fd, isConnected := true } = fd := rfl
      have htake := ht.take hrep hwait' hc hpos hfree hlink rfl hother
      have hsame : Function.update t.opened fd true = t.opened := by
        rw [Function.update_eq_self_iff, hopened, hopen]
      rw [hsame] at htake
      exact htake
  | again | noBuffer | partialRecv | shmEvent | message => exact h

theorem Sound.step [Inhabited B] (h : s.Sound) {a : IpcAction B} (hsafe : s.OwnershipSafe a)
    (hstep : s.step a = some t) : t.Sound := by
  cases a with
  | ipcInit fd listens registers =>
    obtain ⟨hfresh, hstep⟩ := Option.ite_none_right_eq_some.mp hstep
    obtain rfl := Option.some.inj hstep
    cases listens
    · exact h.openClose hfresh
    · exact h.addPassive hfresh (Or.inl rfl) (hsafe rfl) epollIn
  | enqueue call => exact h.nosIpcSendEnqueueEx hstep hsafe
  | processTx c outcomes =>
    obtain ⟨hsender, hstep⟩ := Option.ite_none_right_eq_some.mp hstep
    have hcalled : Sound { s with
        senders := Function.update s.senders c (s.senders c - 1) } := by
      refine h.setSenders fun c' hc' => h.senders c' ?_
      rw [Function.update_apply] at hc'
      split at hc'
      · exact ‹c' = c› ▸ hsender
      · exact hc'
    exact hcalled.nosIpcProcessTx (h.senders c hsender) hstep hsafe.1 hsafe.2
  | epollWait reported =>
    obtain ⟨⟨-, hreceiving, hnodup, -⟩, hstep⟩ := Option.ite_none_right_eq_some.mp hstep
    obtain rfl := Option.some.inj hstep
    exact h.epollWait hreceiving hnodup
  | accept listenFd client registers =>
    obtain ⟨hruns, hstep⟩ := Option.ite_none_right_eq_some.mp hstep
    cases client with
    | none =>
      obtain rfl := Option.some.inj hstep
      exact h.nextEvent
    | some fd =>
      obtain ⟨hfresh, hstep⟩ := Option.ite_none_right_eq_some.mp hstep
      obtain rfl := Option.some.inj hstep
      exact h.nextEvent.addPassive hfresh (Or.inr rfl) (hsafe rfl) epollIn
  | passive fd outcome registers =>
    obtain ⟨⟨hruns, -⟩, hstep⟩ := Option.ite_none_right_eq_some.mp hstep
    obtain rfl := Option.some.inj hstep
    obtain ⟨hr, hwait, -⟩ := h.runs hruns
    apply h.nextEvent.recvPassive hr hwait
    rintro payload rfl
    exact hsafe
  | event fd c outcomes =>
    obtain ⟨hruns, hstep⟩ := Option.ite_none_right_eq_some.mp hstep
    obtain ⟨hr, hwait, hreceiving⟩ := h.runs hruns
    obtain ⟨hc, hheld, hpos⟩ := h.conn_of_registered hr
    rw [if_neg (Int.not_lt.mpr hpos)] at hstep
    obtain ⟨t, hrun, rfl⟩ := Option.map_eq_some_iff.mp hstep
    have ht := h.nextEvent.nosIpcProcessTx hc hrun (fun _ => hheld.symm ▸ hpos)
      fun hmem => absurd hmem hsafe
    obtain ⟨link, rfl⟩ := setLink_of_nosIpcProcessTx hrun hsafe
    exact ht.receive hr hwait.1
  | recv outcome =>
    simp only [IpcNode.step] at hstep
    split at hstep
    · cases hstep
    · rename_i fd c hreceiving
      obtain ⟨-, hstep⟩ := Option.ite_none_right_eq_some.mp hstep
      obtain rfl := Option.some.inj hstep
      obtain ⟨hr, hmem⟩ := h.receiving fd c hreceiving
      refine h.received.recvConn hr ⟨hmem, ?_⟩ true outcome
      rintro c' ⟨⟩
  | otherEvent =>
    obtain ⟨-, hstep⟩ := Option.ite_none_right_eq_some.mp hstep
    obtain rfl := Option.some.inj hstep
    exact h.nextEvent

theorem sound_start [Inhabited B] (notifyFd : Fd) : (start notifyFd : IpcNode B).Sound where
  fds := FdSystem.inv_init notifyFd
  notifyEntry := rfl
  opened fd := by simp [start, FdSystem.init]
  registeredFor fd x hr := by cases hr
  isConnected c hc := by cases hc
  held c hc := by cases hc
  batch event hevent := by cases hevent
  nodup := List.nodup_nil
  receiving fd c hr := by cases hr
  senders c hc := by cases hc
  closes call hcall := by cases hcall
  disconnects mark hmark := by cases hmark

/-- In a run whose steps meet the condition, every close is of an open socket of the one it is
closed for, and every open socket has an owner. -/
theorem always_socketsOwned [Inhabited B] (notifyFd : Fd) (actions : List (IpcAction B))
    (hsafe : Run.Guarded step OwnershipSafe (start notifyFd : IpcNode B) actions) :
    Run.Always step SocketsOwned (start notifyFd : IpcNode B) actions :=
  Run.always_of_guarded (fun _ _ _ h hsafe hstep => h.step hsafe hstep)
    (fun _ h => h.socketsOwned) (sound_start notifyFd) hsafe

/-- An enqueue for the node `B` that connects a socket. -/
def connectCall (fd : ℕ) : EnqueueCall Unit where
  nodeName := some "B"
  env := ⟨some "b.sock", .connects fd, none⟩
  attempt := fd
  registers := true
  buf := ()

/-- The node listens, connects a socket, sends on it and accepts another one, and the peer closes
the first. -/
theorem socketsOwned_connect_accept_close :
    Run.Always step SocketsOwned (start 3) [.ipcInit 4 true true, .enqueue (connectCall 10),
      .processTx 0 [.sent], .epollWait [4, 10], .accept 4 (some 11) true, .event 10 0 [],
      .recv .dropLink] := by
  have hbelow := FdSystem.pointersBelow_init 3
  have hfour : (4 : Fd) ≠ (FdSystem.init 3).thread.notifyFd := by decide
  obtain ⟨hbelow₁, hinv₁⟩ := hbelow.add (FdSystem.inv_init 3) hfour rfl (by decide) epollIn
    acceptCallback mgmtThread
  have hten : (10 : Fd) ≠
      ((FdSystem.init 3).addFdEx 4 epollIn acceptCallback mgmtThread true).thread.notifyFd := by
    decide
  obtain ⟨hbelow₂, -⟩ := hbelow₁.add hinv₁ hten (by decide) (by decide) connEvents eventCallback 0
  apply always_socketsOwned
  refine Run.Guarded.cons rfl ?_ (Run.Guarded.cons rfl ?_ (Run.Guarded.cons rfl ?_
    (Run.Guarded.cons rfl ?_ (Run.Guarded.cons rfl ?_ (Run.Guarded.cons rfl ?_
      (Run.Guarded.cons rfl ?_ trivial))))))
  · exact fun _ => hbelow.addSafe (by decide)
  · rintro c t ⟨⟩ -
    exact hbelow₁.addSafe (by decide)
  · exact ⟨fun _ => by decide, by simp⟩
  · trivial
  · exact fun _ => hbelow₂.addSafe (by decide)
  · simp [OwnershipSafe]
  · trivial

/-- Node `B` connects while it is being connected to. Its `HELLO` then takes the connection from
the first socket, which nothing owns any more, and the end of that one takes down the second. -/
theorem not_socketsOwned_after_both_connect :
    ∃ s, Run.exec step (start 3)
        [.ipcInit 4 true true, .enqueue (connectCall 10), .epollWait [4], .accept 4 (some 11) true,
          .epollWait [11], .passive 11 (.hello [66, 0]) true, .epollWait [10],
          .event 10 0 [.sent], .recv .dropLink] = some s ∧
      s.closes = [⟨10, true, false⟩] ∧ s.disconnects = [⟨0, 11, 10⟩] ∧ s.opened 11 = true ∧
      ¬ s.SocketsOwned := by
  apply Run.exists_exec (fun s => (s.closes, s.disconnects, s.opened 11))
    ([⟨10, true, false⟩], [⟨0, 11, 10⟩], true) (by decide)
  intro s hfinal
  obtain ⟨hcloses, hrest⟩ := Prod.mk.inj hfinal
  obtain ⟨hdisconnects, hopen⟩ := Prod.mk.inj hrest
  refine ⟨hcloses, hdisconnects, hopen, fun h => ?_⟩
  have howned := (h.closes ⟨10, true, false⟩ (by simp [hcloses])).2
  cases howned

end IpcNode

end GeminiNOS

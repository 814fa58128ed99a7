import GeminiNOS.Ipc.TransportReceiver
import GeminiNOS.Ipc.TransportSends

/-! # Order across the transports

A claim is accepted before its event is queued, and no pool message of the same thread
is in between. So the event is ahead of all later pool messages on the connection, and
when the handler takes one of these, the drain that the event has started is over.
-/

namespace GeminiNOS

open Foundations

namespace TransportLink

variable {P N : Type*} {node : P → N} {s t : TransportLink P N} [DecidableEq N]

/-- A turn of `nos_ipc_process_tx` moves a message from the ring to the socket. -/
theorem Inv.txTurn (h : s.Inv node) {n : N} {outcome : SendOutcome} (houtcome : outcome ≠ .failed)
    (hs : s.txTurn n ((s.conn n).processTxTurn outcome) = some t) : t.Inv node := by
  have hfd : ((s.conn n).processTxTurn outcome).conn.fd = (s.conn n).fd := by
    unfold NosIpcConn.processTxTurn
    split
    · exact NosIpcConn.relieve_fd.1
    · cases outcome with
      | sent | again => rfl
      | failed => exact absurd rfl houtcome
  have hcontents := NosIpcConn.contents_processTxTurn (s.conn n) outcome
  have hsingle := h.single.setConn (.inl hfd)
  unfold TransportLink.txTurn at hs
  split at hs
  · rename_i hreturns
    obtain rfl := Option.some.inj hs
    rw [NosIpcConn.sent_of_returns _ _ hreturns] at hcontents
    exact h.setLinks hsingle fun m => traffic_setConn_same h.single (.inl hfd) hcontents.symm m
  · obtain ⟨hopen, hs⟩ := Option.ite_none_left_eq_some.mp hs
    obtain rfl := Option.some.inj hs
    refine h.setLinks (hsingle.setInFlight fun hother => ?_) fun m => traffic_txTurn hfd hcontents m
    have hsame : ((s.setConn n ((s.conn n).processTxTurn outcome).conn).conn n).fd =
        (s.conn n).fd := by
      rw [← hfd]
      exact congrArg NosIpcConn.fd (Function.update_self ..)
    rw [hsame] at hother
    exact absurd hother (by simp [hopen])

theorem Inv.promote (h : s.Inv node) {n : N} {fd : ℕ}
    (hread : (s.conn n).fd = fd ∨ ∀ buf ∈ s.inFlight n (s.conn n).fd, IsTraffic buf = false) :
    (s.setConn n ((s.conn n).promote fd)).Inv node := by
  have hfd : ((s.conn n).promote fd).fd = (s.conn n).fd ∨
      (s.inFlight n (s.conn n).fd).filter IsTraffic = [] :=
    hread.imp Eq.symm fun hnone => List.filter_eq_nil_iff.mpr (by simpa using hnone)
  exact h.setLinks (h.single.setConn hfd) fun m => traffic_setConn_same h.single hfd rfl m

variable [DecidableEq P]

theorem Inv.step {a : TransportAction P N} (h : s.Inv node) (horderly : s.Orderly a)
    (hs : s.step node a = some t) : t.Inv node := by
  cases a with
  | sendPool p bytes env =>
    simp only [TransportLink.step] at hs
    split at hs
    · obtain rfl := Option.some.inj hs
      exact h.sendPool ‹_› bytes env
    · cases hs
  | sendShm p offset =>
    simp only [TransportLink.step] at hs
    split at hs
    · split at hs
      · obtain rfl := Option.some.inj hs
        exact h
      · obtain ⟨queue, hqueue, rfl⟩ := Option.map_eq_some_iff.mp hs
        have hany : s.queue.Room (.enqueue p offset) := trivial
        have hinv := h.accept.queue.step hany hqueue
        simp only [NosShmMpscQueue.step] at hqueue
        split at hqueue
        · cases hqueue
        · obtain rfl := Option.some.inj hqueue
          refine (h.setQueue hinv rfl rfl fun q x tail k hq => .inl ?_).setCall ?_
          · rcases NosShmMpscQueue.store_setProducer.mp hq with ⟨-, ⟨⟩⟩ | ⟨-, hq⟩
            exact hq
          · rintro k (hk | ⟨chunk, hk⟩) <;> cases hk
    · cases hs
  | produce p spurious =>
    simp only [TransportLink.step] at hs
    split at hs
    · obtain ⟨queue, hqueue, rfl⟩ := Option.map_eq_some_iff.mp hs
      exact h.produce horderly hqueue
    · cases hs
  | allocEvent p chunk =>
    simp only [TransportLink.step] at hs
    split at hs <;> rename_i hpc
    · cases chunk with
      | none =>
        obtain rfl := Option.some.inj hs
        exact h.setIdle
      | some chunk =>
        obtain rfl := Option.some.inj hs
        refine h.setCall ?_
        rintro k (hk | ⟨chunk', hk⟩)
        · cases hk
        · obtain ⟨rfl, -⟩ := ShmSendPc.ring.inj hk
          exact h.accept.current p _ (.inl hpc)
    · cases hs
  | ring p env =>
    simp only [TransportLink.step] at hs
    split at hs <;> rename_i hpc
    · cases env with
      | none =>
        obtain rfl := Option.some.inj hs
        exact h.setIdle
      | some env =>
        obtain rfl := Option.some.inj hs
        exact h.ring hpc env
    · cases hs
  | txTurn n outcome =>
    obtain ⟨houtcome, hs⟩ := Option.ite_none_left_eq_some.mp hs
    exact h.txTurn houtcome hs
  | promote n fd =>
    obtain rfl := Option.some.inj hs
    exact h.promote horderly
  | recv n fd pool stack =>
    obtain ⟨hidle, hs⟩ := Option.ite_none_left_eq_some.mp hs
    refine h.recv (Bool.eq_false_iff.mpr hidle) hs fun buf rest k bytes hflight _ hevent => ?_
    rw [hflight]
    exact nosIpcRecvHandler_event_ne hevent pool stack _ false bytes
  | drain =>
    obtain ⟨-, hs⟩ := Option.ite_none_left_eq_some.mp hs
    obtain ⟨queue, hqueue, rfl⟩ := Option.map_eq_some_iff.mp hs
    exact h.drain hqueue

end TransportLink

end GeminiNOS

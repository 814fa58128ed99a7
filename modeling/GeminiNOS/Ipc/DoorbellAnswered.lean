import GeminiNOS.Ipc.Doorbell
import GeminiNOS.Shm.MpscQueueOrder

/-! # Accepted messages are answered

A call of `nos_ipc_send_enqueue_shm` returns `NOS_OK` also when it gets no buffer
for its event or when the connection refuses the event. As long as every call
queues its event and no event is lost on its way, every accepted message is taken
or is about to be.
-/

namespace GeminiNOS

open Foundations Run

variable {d : Bytes} {pool : NosBufferPool}

theorem isShmEvent_shmEvent (chunk : NosServiceMsg) : IsShmEvent (shmEvent chunk) := by
  have hparse := parseHeader_headerBytes { chunk with
    magic := nosIpcMagic, version := nosIpcVersion, msgCode := nosIpcMsgShmEvent,
    payloadLen := 0 } []
  rw [List.append_nil] at hparse
  refine ⟨?_, ?_, ?_⟩
  · rw [shmEvent, hparse]
    rfl
  · rw [shmEvent, hparse]
    rfl
  · rw [shmEvent, hparse, length_headerBytes]
    exact Nat.mod_le ..

theorem nosIpcRecvHandler_event (stack : Bytes) (rest : List Bytes) (closed : Bool)
    (hd : IsShmEvent d) (halloc : (pool.nosBufferAlloc (fullMsgLen (parseHeader d)) 0).isSome) :
    (nosIpcRecvHandler pool stack ⟨d :: rest, closed⟩).1 = .shmEvent := by
  have hlen := fullMsgLen_eq (payloadLen_parseHeader_lt d)
  have hwhole := hd.whole
  have hsize : sizeofNosServiceMsg ≤ d.length := by omega
  have hpeek : peek stack ⟨d :: rest, closed⟩ = .header (parseHeader d) := by
    cases d with
    | nil => cases hsize
    | cons b bytes => exact congrArg Peek.header (parseHeader_take hsize)
  obtain ⟨result, hresult⟩ := Option.isSome_iff_exists.mp halloc
  have hcode : nosIpcMsgShmEvent ≠ nosIpcMsgHello := by decide
  simp [nosIpcRecvHandler, recvStart, hpeek, hd.magic, hresult, dispatch, hd.msgCode, hcode,
    Nat.not_lt.mpr hwhole]

/-- The claim that a call has made in the receive queue. -/
def ShmSendPc.ticket : ShmSendPc → Option ℕ
  | .allocEvent ticket | .ring ticket _ | .processTx ticket => some ticket
  | _ => none

namespace Doorbell

variable {P N : Type*} {node : P → N} {s t : Doorbell P N} {p : P} {n m : N} {fd : Fd}
  {pc : ShmSendPc} {ticket k : ℕ} {conn : NosIpcConn Bytes} {queue : NosShmMpscQueue P}
  {left sent : List Bytes} {caller : TxCaller P}

/-- A message stays answered when the queue returns more and the events stay pending. -/
theorem Answered.mono (h : s.Answered n k)
    (hret : s.queue.returned.length ≤ t.queue.returned.length)
    (hpending : s.Pending n → t.Pending n) (hdrain : s.draining = true → t.draining = true) :
    t.Answered n k :=
  h.imp (fun hk => hk.trans_le hret) (Or.imp hpending hdrain)

section Pending

variable [DecidableEq N]

theorem Pending.setConn (h : s.Pending n)
    (hsub : ∀ d ∈ (s.conn m).tx.contents, d ∈ conn.tx.contents) : (s.setConn m conn).Pending n := by
  refine h.imp_left ?_
  rintro ⟨d, hd, hevent⟩
  refine ⟨d, ?_, hevent⟩
  show d ∈ (Function.update s.conn m conn n).tx.contents
  rw [Function.update_apply]
  split
  · exact hsub d (‹n = m› ▸ hd)
  · exact hd

/-- A socket of one node loses nothing that is pending when it keeps its events, and the events of
the other nodes are not on it. -/
theorem Pending.setInFlight (h : s.Pending n)
    (hsub : n = m → ∀ d ∈ s.inFlight m fd, IsShmEvent d → d ∈ left) :
    (s.setInFlight m fd left).Pending n := by
  refine h.imp_right ?_
  rintro ⟨fd', d, hd, hevent⟩
  refine ⟨fd', d, ?_, hevent⟩
  show d ∈ Function.update s.inFlight m _ n fd'
  rw [Function.update_apply]
  split
  · subst n
    rw [Function.update_apply]
    split
    · exact hsub rfl d (‹fd' = fd› ▸ hd) hevent
    · exact hd
  · exact hd

theorem Pending.send (h : s.Pending n)
    (hconn : (s.conn m).tx.contents = sent ++ conn.tx.contents) :
    ((s.setConn m conn).setInFlight m fd (s.inFlight m fd ++ sent)).Pending n := by
  rcases h with ⟨d, hd, hevent⟩ | h
  · by_cases hne : n = m
    · subst hne
      rw [hconn] at hd
      rcases List.mem_append.mp hd with hd | hd
      · refine Or.inr ⟨fd, d, ?_, hevent⟩
        simp [Doorbell.setInFlight, hd]
      · refine Or.inl ⟨d, ?_, hevent⟩
        show d ∈ (Function.update s.conn n conn n).tx.contents
        rwa [Function.update_self]
    · refine Or.inl ⟨d, ?_, hevent⟩
      show d ∈ (Function.update s.conn m conn n).tx.contents
      rwa [Function.update_of_ne hne]
  · have hflight : (s.setConn m conn).Pending n := Or.inr h
    exact hflight.setInFlight fun _ d hd _ => List.mem_append_left _ hd

end Pending

/-- A call of the node has returned `NOS_OK` for the claim, or has rung for it and is about to. -/
def Waiting (node : P → N) (s : Doorbell P N) (n : N) (ticket : ℕ) : Prop :=
  (n, ticket) ∈ s.returnedOk ∨ ∃ p, node p = n ∧ s.call p = .processTx ticket

/-- The claims of all calls are in the queue, and every call that has rung is answered. -/
structure Inv (node : P → N) (s : Doorbell P N) : Prop where
  queue : s.queue.Inv
  ticket_lt : ∀ p k, (s.call p).ticket = some k → k < s.queue.claims.length
  returned_lt : ∀ call ∈ s.returnedOk, call.2 < s.queue.claims.length
  answered : ∀ n k, s.Waiting node n k → s.Answered n k

/-- The answer to a call at the end of its `nos_ipc_process_tx`. -/
theorem Inv.answered_processTx (h : s.Inv node) (hpc : s.call p = .processTx k) :
    s.Answered (node p) k :=
  h.answered _ k (Or.inr ⟨p, rfl, hpc⟩)

theorem inv_init : (init : Doorbell P N).Inv node where
  queue := NosShmMpscQueue.inv_empty
  ticket_lt _ _ hk := nomatch hk
  returned_lt _ hcall := nomatch hcall
  answered := by
    rintro n k (hk | ⟨p, -, hp⟩)
    · cases hk
    · cases hp

theorem Inv.setQueue (h : s.Inv node) (hqueue : queue.Inv)
    (hclaims : s.queue.claims <+: queue.claims) (hret : s.queue.returned <+: queue.returned) :
    ({ s with queue := queue } : Doorbell P N).Inv node where
  queue := hqueue
  ticket_lt p k hk := (h.ticket_lt p k hk).trans_le hclaims.length_le
  returned_lt call hcall := (h.returned_lt call hcall).trans_le hclaims.length_le
  answered n k hk := (h.answered n k hk).mono hret.length_le id id

/-- The drain loop ends on an empty queue, which has no claim left to take. -/
theorem length_of_drainEnds (h : queue.Inv) (hends : DrainEnds queue) :
    queue.claims.length = queue.returned.length := by
  have hsound := h.consumer
  unfold DrainEnds at hends
  simp only [NosShmMpscQueue.ConsumerSound, hends] at hsound
  rw [h.head_eq, h.tail_eq, eq_comm, Ring.empty_iff h.length_le h.room] at hsound
  exact hsound.symm

theorem Inv.drain (h : s.Inv node) (hqueue : queue.Inv)
    (hclaims : s.queue.claims <+: queue.claims) (hret : s.queue.returned <+: queue.returned) :
    ({ s with queue := queue, draining := ¬ DrainEnds s.queue } : Doorbell P N).Inv node where
  queue := hqueue
  ticket_lt p k hk := (h.ticket_lt p k hk).trans_le hclaims.length_le
  returned_lt call hcall := (h.returned_lt call hcall).trans_le hclaims.length_le
  answered n k hk := by
    by_cases hends : DrainEnds s.queue
    · refine Or.inl ?_
      have hlt : k < s.queue.claims.length := by
        rcases hk with hk | ⟨p, -, hp⟩
        · exact h.returned_lt _ hk
        · exact h.ticket_lt p k (congrArg ShmSendPc.ticket hp)
      rw [length_of_drainEnds h.queue hends] at hlt
      exact hlt.trans_le hret.length_le
    · exact Or.inr (Or.inr (by simpa using hends))

section Calls

variable [DecidableEq P]

theorem Inv.setCall (h : s.Inv node) (hticket : ∀ k, pc.ticket = some k → k < s.queue.claims.length)
    (hans : ∀ k, pc = .processTx k → s.Answered (node p) k) : (s.setCall p pc).Inv node where
  queue := h.queue
  ticket_lt q k hk := by
    change (Function.update s.call p pc q).ticket = some k at hk
    rw [Function.update_apply] at hk
    split at hk
    · exact hticket k hk
    · exact h.ticket_lt q k hk
  returned_lt := h.returned_lt
  answered n k hk := by
    show s.Answered n k
    rcases hk with hk | ⟨q, rfl, hq⟩
    · exact h.answered n k (Or.inl hk)
    · change Function.update s.call p pc q = .processTx k at hq
      rw [Function.update_apply] at hq
      split at hq
      · exact ‹q = p› ▸ hans k hq
      · exact h.answered_processTx hq

theorem Inv.returnOk (h : s.Inv node) (hticket : (s.call p).ticket = some k)
    (hans : s.Answered (node p) k) : (s.returnOk node p k).Inv node := by
  have hidle : (s.setCall p .idle).Inv node :=
    h.setCall (fun _ hk => nomatch hk) fun _ hk => nomatch hk
  refine
    { hidle with
      returned_lt := List.forall_mem_cons.mpr ⟨h.ticket_lt p k hticket, h.returned_lt⟩
      answered := ?_ }
  intro n j hj
  show s.Answered n j
  rcases hj with hj | hj
  · rcases List.mem_cons.mp hj with he | hj
    · cases he
      exact hans
    · exact h.answered n j (Or.inl hj)
  · exact hidle.answered n j (Or.inr hj)

theorem Inv.produce (h : s.Inv node) {spurious : Bool}
    (hroom : s.queue.Room (.produce p spurious))
    (hs : s.queue.step (.produce p spurious) = some queue) :
    ({ s.setCall p (afterProduce (s.queue.producer p) (queue.producer p)) with
      queue := queue } : Doorbell P N).Inv node := by
  obtain ⟨hclaims, hret⟩ := NosShmMpscQueue.history_step hs
  have hqueue := h.setQueue (h.queue.step hroom hs) hclaims hret
  refine hqueue.setCall ?_ ?_
  · intro k hk
    unfold afterProduce at hk
    split at hk
    · cases hk
      exact (h.queue.lt_of_claimed ‹_›).trans_le hclaims.length_le
    · cases hk
    · cases hk
  · intro k hk
    unfold afterProduce at hk
    split at hk <;> cases hk

end Calls

variable [DecidableEq N]

theorem Inv.setConn (h : s.Inv node) (hsub : ∀ d ∈ (s.conn m).tx.contents, d ∈ conn.tx.contents) :
    (s.setConn m conn).Inv node :=
  { h with
    answered := fun n k hk => (h.answered n k hk).mono le_rfl (fun hp => hp.setConn hsub) id }

theorem Inv.setInFlight (h : s.Inv node)
    (hsub : ∀ d ∈ s.inFlight m fd, IsShmEvent d → d ∈ left) : (s.setInFlight m fd left).Inv node :=
  { h with
    answered := fun n k hk =>
      (h.answered n k hk).mono le_rfl (fun hp => hp.setInFlight fun _ => hsub) id }

theorem Inv.clearInFlight (h : s.Inv node) (hnone : ∀ d ∈ s.inFlight m fd, ¬ IsShmEvent d) :
    (s.setInFlight m fd []).Inv node :=
  h.setInFlight fun d hd hevent => absurd hevent (hnone d hd)

theorem Inv.send (h : s.Inv node) (hconn : (s.conn m).tx.contents = sent ++ conn.tx.contents) :
    ((s.setConn m conn).setInFlight m fd (s.inFlight m fd ++ sent)).Inv node :=
  { h with answered := fun n k hk => (h.answered n k hk).mono le_rfl (fun hp => hp.send hconn) id }

variable [DecidableEq P]

/-- A call whose `nos_ipc_process_tx` is over returns with the answer that it has. -/
theorem Inv.releaseTx (h : s.Inv node) : (s.releaseTx node n caller).Inv node := by
  have ht : ({ s with txCaller := Function.update s.txCaller n none } : Doorbell P N).Inv node :=
    { h with }
  unfold Doorbell.releaseTx
  cases caller with
  | other => exact ht
  | call p =>
    simp only
    split <;> rename_i hpc
    · exact ht.returnOk (congrArg ShmSendPc.ticket hpc) (h.answered_processTx hpc)
    · exact ht

theorem Inv.txTurn (h : s.Inv node) {outcome : SendOutcome}
    (hs : s.txTurn node n caller ((s.conn n).processTxTurn outcome) = some t) : t.Inv node := by
  have hcontents := NosIpcConn.contents_processTxTurn (s.conn n) outcome
  unfold Doorbell.txTurn at hs
  split at hs
  · obtain rfl := Option.some.inj hs
    rw [NosIpcConn.sent_of_returns (s.conn n) outcome ‹_›] at hcontents
    refine (h.setConn fun d hd => ?_).releaseTx
    rw [hcontents] at hd
    exact hd
  · split at hs
    · cases hs
    · obtain rfl := Option.some.inj hs
      exact h.send hcontents

theorem Inv.ring (h : s.Inv node) {chunk : NosServiceMsg} {env : EnqueueEnv Bytes}
    (hpc : s.call p = .ring ticket chunk)
    (hring : (s.conn (node p)).nosIpcSendEnqueueEx env (shmEvent chunk) = (.ok, conn)) :
    ((s.setConn (node p) conn).setCall p (.processTx ticket)).Inv node := by
  have hok := NosIpcConn.contents_of_ok (s.conn (node p)) env (shmEvent chunk)
    (congrArg Prod.fst hring)
  rw [hring] at hok
  refine (h.setConn fun d hd => ?_).setCall ?_ ?_
  · rw [hok]
    exact List.mem_append_left _ (NosIpcConn.contents_reconnect.subset hd)
  · intro k hk
    obtain rfl := Option.some.inj hk
    exact h.ticket_lt p _ (congrArg ShmSendPc.ticket hpc)
  · rintro k ⟨⟩
    refine Or.inr (Or.inl (Or.inl ⟨_, ?_, isShmEvent_shmEvent chunk⟩))
    show _ ∈ (Function.update s.conn (node p) conn (node p)).tx.contents
    rw [Function.update_self, hok]
    exact List.mem_append_right _ List.mem_cons_self

theorem Inv.recv (h : s.Inv node) {env : RecvEnv} (hrings : s.Rings node (.recv n fd env))
    (hs : s.step node (.recv n fd env) = some t) : t.Inv node := by
  simp only [Doorbell.step] at hs
  simp only [Rings] at hrings
  split at hs
  · cases hs
  · split at hs <;> rename_i hout <;> obtain rfl := Option.some.inj hs
    · rw [if_pos (outcome_eq_dropLink_iff.mp (congrArg Prod.fst hout))] at hrings
      exact h.clearInFlight hrings
    · exact
        { h with answered := fun _ _ _ => Or.inr (Or.inr rfl) }
    · rename_i out sock hnodrop hquiet
      have hkeep := mt outcome_eq_dropLink_iff.mpr (by rw [hout]; exact hnodrop)
      have hsock : (nosIpcRecvHandler env.pool env.stack _).2.queue = _ :=
        queue_nosIpcRecvHandler hkeep
      rw [hout] at hsock
      rw [if_neg hkeep] at hrings
      rw [hsock]
      refine h.setInFlight fun d' hd' hevent => ?_
      cases hflight : s.inFlight n fd with
      | nil =>
        rw [hflight] at hd'
        cases hd'
      | cons d rest =>
        rw [hflight] at hrings hout hd'
        rcases List.mem_cons.mp hd' with rfl | hd'
        · have hstart := nosIpcRecvHandler_event env.stack rest env.closed hevent
            (hrings d' rfl hevent)
          rw [hout] at hstart
          exact (hquiet hstart).elim
        · exact hd'

theorem Inv.beginCall (h : s.Inv node) {isShm remoteFound : Bool} {offset : ℕ}
    (hs : s.step node (.call p isShm remoteFound offset) = some t) : t.Inv node := by
  simp only [Doorbell.step] at hs
  split at hs
  · split at hs
    · obtain rfl := Option.some.inj hs
      exact h
    · obtain ⟨queue, hqueue, rfl⟩ := Option.map_eq_some_iff.mp hs
      obtain ⟨hclaims, hret⟩ := NosShmMpscQueue.history_step hqueue
      refine (h.setQueue (h.queue.step ?_ hqueue) hclaims hret).setCall ?_ ?_
      · trivial
      · exact fun k hk => nomatch hk
      · exact fun k hk => nomatch hk
  · cases hs

/-- A call that has a buffer for its event goes on with the same claim. -/
theorem Inv.allocEvent (h : s.Inv node) {chunk : NosServiceMsg}
    (hs : s.step node (.allocEvent p (some chunk)) = some t) : t.Inv node := by
  simp only [Doorbell.step] at hs
  split at hs <;> rename_i hpc
  · have hticket := congrArg ShmSendPc.ticket hpc
    obtain rfl := Option.some.inj hs
    refine h.setCall (fun k hk => h.ticket_lt p k (hticket.trans hk)) ?_
    exact fun k hk => nomatch hk
  · cases hs

theorem Inv.ringStep (h : s.Inv node) {env : EnqueueEnv Bytes}
    (haccepts : (s.conn (node p)).Accepts env) (hs : s.step node (.ring p (some env)) = some t) :
    t.Inv node := by
  simp only [Doorbell.step] at hs
  split at hs <;> rename_i hpc
  · split at hs
    · cases hs
    · rename_i chunk _
      have hok := (NosIpcConn.nosIpcSendEnqueueEx_ok_iff _ _ (shmEvent chunk)).mpr haccepts
      split at hs <;> rename_i hring
      · obtain rfl := Option.some.inj hs
        exact h.ring hpc hring
      · rw [hring] at hok
        exact absurd hok ‹_›
  · cases hs

theorem Inv.drainStep (h : s.Inv node) (hs : s.step node .drain = some t) : t.Inv node := by
  simp only [Doorbell.step, drainTurn] at hs
  split at hs
  · cases hs
  · obtain ⟨queue, hqueue, rfl⟩ := Option.map_eq_some_iff.mp hs
    split at hqueue <;> obtain ⟨hclaims, hret⟩ := NosShmMpscQueue.history_step hqueue
    all_goals
      refine h.drain (h.queue.step ?_ hqueue) hclaims hret
      trivial

/-- A step that meets its condition leaves every accepted message answered. -/
theorem Inv.step (h : s.Inv node) {action : DoorbellAction P N} (hrings : s.Rings node action)
    (hs : s.step node action = some t) : t.Inv node := by
  cases action with
  | call p isShm remoteFound offset => exact h.beginCall hs
  | produce p spurious =>
    simp only [Doorbell.step] at hs
    split at hs
    · obtain ⟨queue, hqueue, rfl⟩ := Option.map_eq_some_iff.mp hs
      exact h.produce hrings hqueue
    · cases hs
  | allocEvent p chunk =>
    obtain ⟨chunk, rfl⟩ := Option.isSome_iff_exists.mp hrings
    exact h.allocEvent hs
  | ring p env =>
    obtain ⟨env, rfl, haccepts⟩ := hrings
    exact h.ringStep haccepts hs
  | sendOther n buf env =>
    simp only [Doorbell.step] at hs
    split at hs
    · cases hs
    · obtain rfl := Option.some.inj hs
      have hsub := (NosIpcConn.contents_nosIpcSendEnqueueEx (s.conn n) env buf).subset
      exact h.setConn fun d hd => hsub hd
  | txLock n caller =>
    simp only [Doorbell.step] at hs
    split at hs
    · cases hs
    · obtain rfl := Option.some.inj hs
      exact { h with }
  | txTurn n outcome =>
    simp only [Doorbell.step] at hs
    split at hs
    · cases hs
    · exact h.txTurn hs
  | promote n fd =>
    simp only [Doorbell.step] at hs
    split at hs
    · cases hs
    · obtain rfl := Option.some.inj hs
      exact h.setConn fun d hd => hd
  | linkGone n =>
    obtain rfl := Option.some.inj hs
    exact h.setConn fun d hd => hd
  | recv n fd env => exact h.recv hrings hs
  | closeLink n fd =>
    obtain rfl := Option.some.inj hs
    exact h.clearInFlight hrings
  | drain => exact h.drainStep hs

end Doorbell

end GeminiNOS

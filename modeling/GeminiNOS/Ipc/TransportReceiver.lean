import GeminiNOS.Ipc.TransportInvariant

/-! # The receiver of the transports

A drain ends when every accepted claim has been returned. When the handler takes a pool
message, every drain is over, so the claims whose events were ahead of it have been
passed on.
-/

namespace GeminiNOS

open Foundations

theorem nosIpcRecvHandler_event_ne {d : Bytes} (hd : IsShmEvent d) (pool : NosBufferPool)
    (stack : Bytes) (rest : List Bytes) (closed : Bool) (bytes : Bytes) :
    (nosIpcRecvHandler pool stack ⟨d :: rest, closed⟩).1 ≠ .message bytes := by
  intro h
  unfold nosIpcRecvHandler at h
  split at h
  · cases h
  · cases h
  · cases h
  · have hcode : nosIpcMsgShmEvent ≠ nosIpcMsgHello := by decide
    simp only [List.headD_cons, dispatch, hd.msgCode, if_neg hcode, if_true] at h
    split at h <;> cases h

namespace NosShmMpscQueue

variable {P : Type*} {s s' : NosShmMpscQueue P}

theorem consume_cases (h : s.Inv) (hs : s.consume = some s') :
    s'.accepted = s.accepted ∧ s'.producer = s.producer ∧
      (s'.returned = s.returned ∨
        s'.returned.length = s.returned.length + 1 ∧ s.returned.length ∈ s.accepted ∧
          ¬ Doorbell.DrainEnds s) := by
  have hsound := h.consumer
  unfold consume at hs
  split at hs <;> rename_i hpc
  · cases hs
  · obtain rfl := Option.some.inj hs
    exact ⟨rfl, rfl, .inl rfl⟩
  · split at hs <;> obtain rfl := Option.some.inj hs <;> exact ⟨rfl, rfl, .inl rfl⟩
  · split at hs <;> obtain rfl := Option.some.inj hs <;> exact ⟨rfl, rfl, .inl rfl⟩
  · obtain rfl := Option.some.inj hs
    exact ⟨rfl, rfl, .inl rfl⟩
  · obtain rfl := Option.some.inj hs
    simp only [ConsumerSound, hpc] at hsound
    refine ⟨rfl, rfl, .inr ⟨List.length_append, hsound.2.1, ?_⟩⟩
    simp [Doorbell.DrainEnds, hpc]

theorem drainTurn_cases [DecidableEq P] (h : s.Inv) (hs : Doorbell.drainTurn s = some s') :
    s'.Inv ∧ s'.accepted = s.accepted ∧ s'.producer = s.producer ∧
      (s'.returned = s.returned ∨
        s'.returned.length = s.returned.length + 1 ∧ s.returned.length ∈ s.accepted ∧
          ¬ Doorbell.DrainEnds s) := by
  unfold Doorbell.drainTurn at hs
  split at hs
  · have hstep := hs
    simp only [NosShmMpscQueue.step] at hs
    split at hs
    · cases hs
    · obtain rfl := Option.some.inj hs
      have hroom : s.Room .dequeue := trivial
      exact ⟨h.step hroom hstep, rfl, rfl, .inl rfl⟩
  · have hroom : s.Room .consume := trivial
    exact ⟨h.step hroom hs, consume_cases h hs⟩

end NosShmMpscQueue

namespace TransportLink

variable {P N : Type*} {node : P → N} {s t : TransportLink P N} {p : P} {n : N} {k i : ℕ}

theorem poolMsg_notMem_newlyReturned {queue queue' : NosShmMpscQueue P} :
    .pool p i ∉ newlyReturned queue queue' := by
  unfold newlyReturned
  split <;> simp

/-- A step of the drain loop. When it ends, every accepted claim has been returned. -/
theorem Inv.drain [DecidableEq P] (h : s.Inv node) {queue : NosShmMpscQueue P}
    (hs : Doorbell.drainTurn s.queue = some queue) :
    Inv node { s with
      queue := queue
      draining := ¬ Doorbell.DrainEnds s.queue
      passed := s.passed ++ newlyReturned s.queue queue } := by
  obtain ⟨hqueue, haccepted, hproducer, hret⟩ :=
    NosShmMpscQueue.drainTurn_cases h.accept.queue hs
  have haccept := h.accept.setQueue hqueue haccepted fun q offset tail k hq =>
    .inl (hproducer ▸ hq)
  have hpool : ∀ p i, .pool p i ∈ s.passed ++ newlyReturned s.queue queue →
      .pool p i ∈ s.passed := fun p i hi =>
    (List.mem_append.mp hi).resolve_right poolMsg_notMem_newlyReturned
  refine ⟨h.single, { haccept with }, ?_, ?_, ?_⟩
  · exact { h.wire with
      behind := fun n buf hb p i j hj hi => h.wire.behind n buf hb p i j hj (hpool p i hi) }
  · rcases hret with hret | ⟨hret, hmem, -⟩
    · have hnew : newlyReturned s.queue queue = [] := by
        rw [newlyReturned, if_neg (by rw [hret]; omega)]
      rw [hnew, List.append_nil]
      exact h.passed.mono rfl hret fun _ _ hm => hm
    · have hnew : newlyReturned s.queue queue = [.shm s.queue.returned.length] := by
        rw [newlyReturned, if_pos (by omega)]
      rw [hnew]
      exact h.passed.passShm rfl ((h.accept.shm_iff _).mp hmem) rfl hret
  · have htaken : ∀ k ∈ s.queue.accepted, Taken { s with
        queue := queue
        draining := ¬ Doorbell.DrainEnds s.queue
        passed := s.passed ++ newlyReturned s.queue queue } k := by
      intro k hk
      by_cases hends : Doorbell.DrainEnds s.queue
      · left
        have hlt := h.accept.queue.accepted_lt k hk
        rw [Doorbell.length_of_drainEnds h.accept.queue hends] at hlt
        show k < queue.returned.length
        rcases hret with hret | ⟨hret, -⟩
        · rwa [hret]
        · omega
      · exact .inr (decide_eq_true hends)
    refine ⟨fun k hk => ?_, fun p k hk hr hd => ?_, fun p k i hb hr hd => ?_,
      fun p k i hb hr hd hi => ?_⟩
    · show k ∈ queue.accepted
      rw [haccepted]
      exact h.rung.mem k hk
    · exact .inl (htaken k (h.rung.mem k hr))
    · exact .inl (htaken k (h.rung.mem k hr))
    · exact (h.rung.passed p k i hb hr hd (hpool p i hi)).append _

variable [DecidableEq N] {fd : Fd} {buf : TxBuf P} {rest : List (TxBuf P)}

/-- The traffic after the handler has taken a buffer. -/
structure Popped (s t : TransportLink P N) (n : N) (buf : TxBuf P) : Prop where
  single : t.Single
  queue : t.queue = s.queue
  accepted : t.accepted = s.accepted
  rung : t.rung = s.rung
  other : ∀ m, m ≠ n → t.traffic m = s.traffic m
  traffic : s.traffic n = buf :: t.traffic n

theorem Popped.sublist (hp : s.Popped t n buf) (m : N) : (t.traffic m).Sublist (s.traffic m) := by
  by_cases hm : m = n
  · rw [hm, hp.traffic]
    exact List.sublist_cons_self ..
  · rw [hp.other m hm]

theorem WireInv.pop (h : s.WireInv node) (hp : s.Popped t n buf)
    (hbehind : ∀ m, ∀ b ∈ t.traffic m, ∀ p i j, b.mark = .pool p j →
      .pool p i ∈ t.passed → i < j) : t.WireInv node where
  event m b hb := h.event m b ((hp.sublist m).subset hb)
  pool m b hb := by
    rw [hp.accepted]
    exact h.pool m b ((hp.sublist m).subset hb)
  sorted m := (h.sorted m).sublist (hp.sublist m)
  behind := hbehind

theorem RungInv.pop (h : s.RungInv node) (hp : s.Popped t n buf)
    (hdrain : s.draining = true → t.draining = true)
    (hkeep : ∀ k, k ∉ t.discarded → k ∉ s.discarded ∧ (buf.mark = .event k → t.Taken k))
    (hpassed : ∀ p k i, Before (s.accepted p) (.shm k) (.pool p i) → k ∈ s.rung →
      k ∉ s.discarded → .pool p i ∈ t.passed → Before t.passed (.shm k) (.pool p i)) :
    t.RungInv node := by
  have htaken : ∀ k, s.Taken k → t.Taken k := by
    intro k hk
    rw [Taken, hp.queue]
    exact hk.imp_right hdrain
  refine ⟨?_, fun p k hk hr hd => ?_, fun p k i hb hr hd => ?_, fun p k i hb hr hd hi => ?_⟩
  · rw [hp.queue, hp.rung]
    exact h.mem
  · rw [hp.accepted] at hk
    rw [hp.rung] at hr
    obtain ⟨hd', hevent⟩ := hkeep k hd
    rcases h.pending p k hk hr hd' with hk | ⟨b, hb, hmark⟩
    · exact .inl (htaken k hk)
    · by_cases hn : node p = n
      · rw [hn, hp.traffic] at hb
        rcases List.mem_cons.mp hb with rfl | hb
        · exact .inl (hevent hmark)
        · exact .inr ⟨b, hn ▸ hb, hmark⟩
      · exact .inr ⟨b, (hp.other _ hn).symm ▸ hb, hmark⟩
  · rw [hp.accepted] at hb
    rw [hp.rung] at hr
    obtain ⟨hd', hevent⟩ := hkeep k hd
    rcases h.ahead p k i hb hr hd' with hk | hahead
    · exact .inl (htaken k hk)
    · by_cases hn : node p = n
      · by_cases hmark : buf.mark = .event k
        · exact .inl (hevent hmark)
        · refine .inr fun l b l' hsplit hbp => ?_
          obtain ⟨e, he, hek⟩ := hahead (buf :: l) b l'
            (by rw [hn, hp.traffic, ← hn, hsplit, List.cons_append]) hbp
          rcases List.mem_cons.mp he with rfl | he
          · exact absurd hek hmark
          · exact ⟨e, he, hek⟩
      · refine .inr fun l b l' hsplit => hahead l b l' ?_
        rw [← hsplit, hp.other _ hn]
  · rw [hp.accepted] at hb
    rw [hp.rung] at hr
    exact hpassed p k i hb hr (hkeep k hd).1 hi

omit [DecidableEq N] in
theorem AcceptInv.pop (h : s.AcceptInv) (hp : s.Popped t n buf) (hcall : t.call = s.call) :
    t.AcceptInv := by
  obtain ⟨-, hqueue, haccepted, -⟩ := hp
  constructor
  · exact hqueue ▸ h.queue
  · exact haccepted ▸ h.pool_mem
  · exact haccepted ▸ h.pool_lt
  · rw [hqueue, haccepted]
    exact h.shm_iff
  · exact haccepted ▸ h.owner
  · exact haccepted ▸ h.shm_lt
  · rw [hqueue, haccepted]
    exact h.store_gt
  · rw [hcall, haccepted]
    exact h.current

theorem Inv.take (h : s.Inv node) (hp : s.Popped t n buf) (hcall : t.call = s.call)
    (hpassed : t.passed = s.passed) (hdrain : s.draining = true → t.draining = true)
    (hkeep : ∀ k, k ∉ t.discarded → k ∉ s.discarded ∧ (buf.mark = .event k → t.Taken k)) :
    t.Inv node := by
  refine ⟨hp.single, h.accept.pop hp hcall, h.wire.pop hp fun m b hb p i j hj hi => ?_,
    h.passed.mono hpassed (congrArg _ hp.queue) fun p m hm => hp.accepted ▸ hm,
    h.rung.pop hp hdrain hkeep ?_⟩
  · rw [hpassed] at hi
    exact h.wire.behind m b ((hp.sublist m).subset hb) p i j hj hi
  · rw [hpassed]
    exact h.rung.passed

/-- What is ahead of a pool message that is taken while the queue is not being drained has been
passed on. -/
theorem RungInv.passPool (h : s.RungInv node) (hp : s.Popped t (node p) buf)
    (hmark : buf.mark = .pool p i) (hpassed : t.passed = s.passed ++ [.pool p i])
    (hidle : s.draining = false) (hdiscarded : t.discarded = s.discarded)
    (hshm : ∀ k, .shm k ∈ s.passed ↔ k < s.queue.returned.length) : t.RungInv node := by
  refine h.pop hp (by rw [hidle]; rintro ⟨⟩) (fun k hk => ?_) fun q k j hb hr hd hj => ?_
  · rw [hdiscarded] at hk
    refine ⟨hk, fun he => ?_⟩
    rw [hmark] at he
    cases he
  · rw [hpassed] at hj ⊢
    rcases List.mem_append.mp hj with hj | hj
    · exact (h.passed q k j hb hr hd hj).append _
    · obtain ⟨rfl, rfl⟩ := SentMsg.pool.inj (List.mem_singleton.mp hj)
      refine before_concat.mpr (.inr ⟨?_, rfl⟩)
      rcases h.ahead q k j hb hr hd with (hk | hk) | hahead
      · exact (hshm k).mpr hk
      · rw [hidle] at hk
        cases hk
      · obtain ⟨e, he, -⟩ := hahead [] buf (t.traffic (node q)) (by rw [hp.traffic]; rfl) hmark
        cases he

theorem Inv.passPool (h : s.Inv node) (hp : s.Popped t n buf) (hcall : t.call = s.call)
    (hmark : buf.mark = .pool p i) (hpassed : t.passed = s.passed ++ [.pool p i])
    (hidle : s.draining = false) (hdiscarded : t.discarded = s.discarded) : t.Inv node := by
  have hbuf : buf ∈ s.traffic n := hp.traffic ▸ List.mem_cons_self
  obtain ⟨rfl, haccepted⟩ := h.wire.pool n buf hbuf p i hmark
  have hless : ∀ j, .pool p j ∈ s.passed → j < i := fun j hj =>
    h.wire.behind _ buf hbuf p j i hmark hj
  refine ⟨hp.single, h.accept.pop hp hcall, h.wire.pop hp fun m b hb q j l hl hj => ?_,
    h.passed.passPool hp.accepted haccepted hless hpassed (congrArg _ hp.queue),
    h.rung.passPool hp hmark hpassed hidle hdiscarded h.passed.shm_iff⟩
  rw [hpassed] at hj
  rcases List.mem_append.mp hj with hj | hj
  · exact h.wire.behind m b ((hp.sublist m).subset hb) q j l hl hj
  · obtain ⟨rfl, rfl⟩ := SentMsg.pool.inj (List.mem_singleton.mp hj)
    have hm := (h.wire.pool m b ((hp.sublist m).subset hb) q l hl).1
    rw [← hm] at hb
    have hsorted := h.wire.sorted (node q)
    rw [hp.traffic] at hsorted
    exact (List.pairwise_cons.mp hsorted).1 b hb q j l hmark hl

theorem popped_setInFlight (hsingle : s.Single) (hflight : s.inFlight n fd = buf :: rest)
    (htraffic : s.traffic n = buf :: (s.setInFlight n fd rest).traffic n) :
    s.Popped (s.setInFlight n fd rest) n buf :=
  ⟨hsingle.pop hflight, rfl, rfl, rfl, (traffic_pop hsingle hflight).1, htraffic⟩

/-- A `HELLO` is taken. -/
theorem Inv.takeHello (h : s.Inv node) (hflight : s.inFlight n fd = buf :: rest)
    (htraffic : (s.setInFlight n fd rest).traffic n = s.traffic n) :
    (s.setInFlight n fd rest).Inv node := by
  refine h.setLinks (h.single.pop hflight) fun m => ?_
  by_cases hm : m = n
  · rw [hm]
    exact htraffic
  · exact (traffic_pop h.single hflight).1 m hm

theorem Inv.recv (h : s.Inv node) (hidle : s.draining = false) {outcome : RecvOutcome}
    (hs : s.recv n fd (s.inFlight n fd) outcome = some t)
    (hevent : ∀ buf rest k bytes, s.inFlight n fd = buf :: rest → buf.mark = .event k →
      IsShmEvent buf.bytes → outcome ≠ .message bytes) : t.Inv node := by
  unfold TransportLink.recv at hs
  split at hs
  · obtain rfl := Option.some.inj hs
    exact h
  · cases hs
  · cases hs
  · rename_i hflight
    obtain rfl := Option.some.inj hs
    have htaken : ∀ k (u : TransportLink P N), Taken { u with draining := true } k := fun _ _ =>
      .inr rfl
    rcases (traffic_pop h.single hflight).2 with ⟨-, hsame⟩ | ⟨-, hpop⟩
    · have hhello := h.takeHello hflight hsame
      exact ⟨hhello.single, { hhello.accept with }, { hhello.wire with }, { hhello.passed with },
        { hhello.rung with
          pending := fun p k _ _ _ => .inl (htaken k _)
          ahead := fun p k i _ _ _ => .inl (htaken k _) }⟩
    · exact h.take { popped_setInFlight h.single hflight hpop with } rfl rfl (fun _ => rfl)
        fun k hk => ⟨hk, fun _ => htaken k _⟩
  · rename_i buf rest bytes hflight
    obtain rfl := Option.some.inj hs
    rcases (traffic_pop h.single hflight).2 with ⟨⟨bytes, rfl⟩, hsame⟩ | ⟨hbuf, hpop⟩
    · show Inv node { s.setInFlight n fd rest with passed := s.passed ++ [] }
      rw [List.append_nil]
      exact h.takeHello hflight hsame
    · have hmem : buf ∈ s.traffic n := hpop ▸ List.mem_cons_self
      cases hmark : buf.mark with
      | hello =>
        rw [IsTraffic, hmark] at hbuf
        cases hbuf
      | pool p i =>
        exact h.passPool { popped_setInFlight h.single hflight hpop with } rfl hmark rfl hidle rfl
      | event k =>
        exact absurd rfl (hevent buf rest k bytes hflight hmark (h.wire.event n buf hmem k hmark))
  · rename_i buf rest hflight _ _ _ _
    obtain rfl := Option.some.inj hs
    rcases (traffic_pop h.single hflight).2 with ⟨⟨bytes, rfl⟩, hsame⟩ | ⟨-, hpop⟩
    · exact h.takeHello hflight hsame
    · refine h.take { popped_setInFlight h.single hflight hpop with } rfl rfl id fun k hk => ?_
      have hk' : k ∉ buf.mark.ticket ++ s.discarded := hk
      rw [List.mem_append, not_or] at hk'
      refine ⟨hk'.2, fun he => ?_⟩
      rw [he] at hk'
      exact absurd List.mem_cons_self hk'.1

end TransportLink

end GeminiNOS

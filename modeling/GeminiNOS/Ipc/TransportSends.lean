import GeminiNOS.Ipc.TransportInvariant

/-! # Sends over the transports

A claim is accepted before its event is queued, and no pool message of the same thread
is in between. So the event is ahead of all later pool messages of the thread.
-/

namespace GeminiNOS

open Foundations

namespace NosShmMpscQueue

variable {P : Type*} [DecidableEq P] {s s' : NosShmMpscQueue P} {p : P}

theorem produce_cases {spurious : Bool} (hs : s.produce p spurious = some s') :
    s'.returned = s.returned ∧ (∀ q, q ≠ p → s'.producer q = s.producer q) ∧
      ((∃ offset tail k, s.producer p = .store offset tail k ∧ s'.accepted = k :: s.accepted ∧
          s'.producer p = .idle) ∨
        (∀ offset tail k, s.producer p ≠ .store offset tail k) ∧ s'.accepted = s.accepted ∧
          ∀ offset tail k, s'.producer p = .store offset tail k → k = s.claims.length) := by
  have hother : ∀ (t : NosShmMpscQueue P) (pc : EnqueuePc) (q : P), q ≠ p →
      (t.setProducer p pc).producer q = t.producer q := by
    intro t pc q hq
    rw [producer_setProducer, if_neg hq]
  have hself : ∀ (t : NosShmMpscQueue P) (pc : EnqueuePc),
      (t.setProducer p pc).producer p = pc := by
    intro t pc
    rw [producer_setProducer, if_pos rfl]
  unfold produce at hs
  split at hs <;> rename_i hpc
  · cases hs
  · obtain rfl := Option.some.inj hs
    refine ⟨rfl, hother s _, .inr ⟨?_, rfl, ?_⟩⟩
    · simp [hpc]
    · simp [hself]
  · split at hs <;> obtain rfl := Option.some.inj hs <;>
      refine ⟨rfl, hother s _, .inr ⟨?_, rfl, ?_⟩⟩
    · simp [hpc]
    · simp [hself]
    · simp [hpc]
    · simp [hself]
  · split at hs <;> obtain rfl := Option.some.inj hs
    · refine ⟨rfl, hother _ _, .inr ⟨?_, rfl, ?_⟩⟩
      · simp [hpc]
      · rw [hself]
        rintro offset tail k ⟨⟩
        rfl
    · refine ⟨rfl, hother s _, .inr ⟨?_, rfl, ?_⟩⟩
      · simp [hpc]
      · simp [hself]
  · obtain rfl := Option.some.inj hs
    exact ⟨rfl, hother _ _, .inl ⟨_, _, _, hpc, rfl, hself _ _⟩⟩

end NosShmMpscQueue

namespace TransportLink

variable {P N : Type*} {node : P → N} {s t : TransportLink P N} {p : P} {n : N} {k i : ℕ}

variable [DecidableEq P] {pc : ShmSendPc} {queue : NosShmMpscQueue P}

theorem call_setCall (q : P) :
    (s.setCall p pc).call q = if q = p then pc else s.call q := Function.update_apply ..

theorem accepted_accept (m : SentMsg P) (q : P) :
    (s.accept p m).accepted q = if q = p then s.accepted p ++ [m] else s.accepted q := by
  show Function.update s.accepted p _ q = _
  rw [Function.update_apply]

theorem mem_accepted_accept {m m' : SentMsg P} {q : P} :
    m' ∈ (s.accept p m).accepted q ↔ m' ∈ s.accepted q ∨ q = p ∧ m' = m := by
  rw [accepted_accept]
  split
  · obtain rfl := ‹q = p›
    simp
  · simp [‹¬ q = p›]

theorem before_accepted_accept {m a b : SentMsg P} {q : P} :
    Before ((s.accept p m).accepted q) a b ↔
      Before (s.accepted q) a b ∨ q = p ∧ a ∈ s.accepted q ∧ b = m := by
  rw [accepted_accept]
  split
  · obtain rfl := ‹q = p›
    simp [before_concat]
  · simp [‹¬ q = p›]

/-- A call moves to where it need not have accepted its message last, or where it has. -/
theorem AcceptInv.setCall (h : s.AcceptInv)
    (hpc : ∀ k, pc = .allocEvent k ∨ (∃ chunk, pc = .ring k chunk) →
      ∃ before, s.accepted p = before ++ [.shm k] ∧ .shm k ∉ before) :
    (s.setCall p pc).AcceptInv := by
  refine { h with current := fun q k hq => ?_ }
  rw [call_setCall] at hq
  split at hq
  · obtain rfl := ‹q = p›
    exact hpc k hq
  · exact h.current q k hq

theorem Inv.setCall (h : s.Inv node)
    (hpc : ∀ k, pc = .allocEvent k ∨ (∃ chunk, pc = .ring k chunk) →
      ∃ before, s.accepted p = before ++ [.shm k] ∧ .shm k ∉ before) :
    (s.setCall p pc).Inv node :=
  ⟨h.single, h.accept.setCall hpc, { h.wire with }, { h.passed with }, { h.rung with }⟩

theorem Inv.setIdle (h : s.Inv node) : (s.setCall p .idle).Inv node := by
  refine h.setCall ?_
  rintro k (hk | ⟨chunk, hk⟩) <;> cases hk

theorem AcceptInv.acceptPool (h : s.AcceptInv) (hidle : s.call p = .idle) :
    (s.accept p (.pool p (s.accepted p).length)).AcceptInv := by
  refine
    { queue := h.queue
      pool_mem := fun q r i hi => ?_
      pool_lt := fun q i j hb => ?_
      shm_iff := fun k => ?_
      owner := fun q r k hq hr => ?_
      shm_lt := fun q j k hb => ?_
      store_gt := fun q offset tail k hq j hj => ?_
      current := fun q k hq => ?_ }
  · rw [mem_accepted_accept] at hi
    rw [accepted_accept]
    rcases hi with hi | ⟨rfl, he⟩
    · obtain ⟨hr, hlt⟩ := h.pool_mem q r i hi
      refine ⟨hr, ?_⟩
      split
      · obtain rfl := ‹q = p›
        rw [List.length_append]
        omega
      · exact hlt
    · obtain ⟨rfl, rfl⟩ := SentMsg.pool.inj he
      simp
  · rcases before_accepted_accept.mp hb with hb | ⟨rfl, hi, he⟩
    · exact h.pool_lt q i j hb
    · obtain ⟨-, rfl⟩ := SentMsg.pool.inj he
      exact (h.pool_mem q q i hi).2
  · show k ∈ s.queue.accepted ↔ _
    rw [h.shm_iff]
    simp [mem_accepted_accept]
  · refine h.owner q r k ?_ ?_
    · simpa [mem_accepted_accept] using hq
    · simpa [mem_accepted_accept] using hr
  · rcases before_accepted_accept.mp hb with hb | ⟨-, -, he⟩
    · exact h.shm_lt q j k hb
    · cases he
  · exact h.store_gt q offset tail k hq j (by simpa [mem_accepted_accept] using hj)
  · have hne : q ≠ p := by
      rintro rfl
      have hq' : s.call q = .allocEvent k ∨ ∃ chunk, s.call q = .ring k chunk := hq
      rw [hidle] at hq'
      rcases hq' with hq' | ⟨chunk, hq'⟩ <;> cases hq'
    rw [accepted_accept, if_neg hne]
    exact h.current q k hq

theorem AcceptInv.acceptShm (h : s.AcceptInv) {offset tail : ℕ} (hqueue : queue.Inv)
    (hpc : s.queue.producer p = .store offset tail k)
    (haccepted : queue.accepted = k :: s.queue.accepted) (hidle : queue.producer p = .idle)
    (hother : ∀ q, q ≠ p → queue.producer q = s.queue.producer q) :
    AcceptInv (({ s.setCall p (.allocEvent k) with queue := queue }).accept p (.shm k)) := by
  obtain ⟨-, -, -, hnew, -⟩ := h.queue.claimed p offset tail k hpc
  have hfresh : ∀ q, .shm k ∉ s.accepted q := fun q hq =>
    hnew ((h.shm_iff k).mpr ⟨q, hq⟩)
  have hold : ∀ q j, .shm j ∈
      (({ s.setCall p (.allocEvent k) with queue := queue }).accept p (.shm k)).accepted q →
      .shm j ∈ s.accepted q ∨ q = p ∧ j = k := by
    intro q j hj
    exact (mem_accepted_accept.mp hj).imp_right fun he => ⟨he.1, SentMsg.shm.inj he.2⟩
  refine
    { queue := hqueue
      pool_mem := fun q r i hi => ?_
      pool_lt := fun q i j hb => ?_
      shm_iff := fun j => ?_
      owner := fun q r j hq hr => ?_
      shm_lt := fun q j i hb => ?_
      store_gt := fun q x t i hq j hj => ?_
      current := fun q j hq => ?_ }
  · have hi' : .pool r i ∈ s.accepted q :=
      (mem_accepted_accept.mp hi).resolve_right (by rintro ⟨-, ⟨⟩⟩)
    obtain ⟨hr, hlt⟩ := h.pool_mem q r i hi'
    refine ⟨hr, hlt.trans_le ?_⟩
    rw [accepted_accept]
    split
    · obtain rfl := ‹q = p›
      show (s.accepted q).length ≤ (s.accepted q ++ [SentMsg.shm k]).length
      rw [List.length_append]
      omega
    · exact le_rfl
  · rcases before_accepted_accept.mp hb with hb | ⟨-, -, he⟩
    · exact h.pool_lt q i j hb
    · cases he
  · show j ∈ queue.accepted ↔ _
    rw [haccepted, List.mem_cons, h.shm_iff]
    constructor
    · rintro (rfl | ⟨q, hq⟩)
      · exact ⟨p, mem_accepted_accept.mpr (.inr ⟨rfl, rfl⟩)⟩
      · exact ⟨q, mem_accepted_accept.mpr (.inl hq)⟩
    · rintro ⟨q, hq⟩
      rcases hold q j hq with hq | ⟨-, rfl⟩
      · exact .inr ⟨q, hq⟩
      · exact .inl rfl
  · rcases hold q j hq with hq₀ | ⟨rfl, rfl⟩
    · rcases hold r j hr with hr₀ | ⟨-, rfl⟩
      · exact h.owner q r j hq₀ hr₀
      · exact absurd hq₀ (hfresh q)
    · rcases hold r j hr with hr₀ | ⟨rfl, -⟩
      · exact absurd hr₀ (hfresh r)
      · rfl
  · rcases before_accepted_accept.mp hb with hb | ⟨rfl, hj, he⟩
    · exact h.shm_lt q j i hb
    · obtain rfl := SentMsg.shm.inj he
      exact h.store_gt q offset tail i hpc j hj
  · have hq' : queue.producer q = .store x t i := hq
    have hne : q ≠ p := by
      rintro rfl
      rw [hidle] at hq'
      cases hq'
    rcases hold q j hj with hj | ⟨rfl, -⟩
    · exact h.store_gt q x t i (hother q hne ▸ hq') j hj
    · exact absurd rfl hne
  · have hq' : (s.setCall p (.allocEvent k)).call q = .allocEvent j ∨
      ∃ chunk, (s.setCall p (.allocEvent k)).call q = .ring j chunk := hq
    rw [call_setCall] at hq'
    rw [accepted_accept]
    split at hq'
    · obtain rfl := ‹q = p›
      rcases hq' with hq' | ⟨chunk, hq'⟩
      · obtain rfl := ShmSendPc.allocEvent.inj hq'
        exact ⟨s.accepted q, if_pos rfl, hfresh q⟩
      · cases hq'
    · rw [if_neg ‹_›]
      exact h.current q j hq'

theorem RungInv.acceptShm (h : s.RungInv node) (hr : k ∉ s.rung) :
    (s.accept p (.shm k)).RungInv node := by
  refine ⟨h.mem, fun q j hj hrung hd => ?_, fun q j i hb => ?_, fun q j i hb => ?_⟩
  · rcases mem_accepted_accept.mp hj with hj | ⟨-, he⟩
    · exact h.pending q j hj hrung hd
    · obtain rfl := SentMsg.shm.inj he
      exact absurd hrung hr
  · rcases before_accepted_accept.mp hb with hb | ⟨-, -, he⟩
    · exact h.ahead q j i hb
    · cases he
  · rcases before_accepted_accept.mp hb with hb | ⟨-, -, he⟩
    · exact h.passed q j i hb
    · cases he

theorem Inv.acceptShm (h : s.Inv node) {offset tail : ℕ} (hqueue : queue.Inv)
    (hpc : s.queue.producer p = .store offset tail k)
    (haccepted : queue.accepted = k :: s.queue.accepted)
    (hret : queue.returned = s.queue.returned) (hidle : queue.producer p = .idle)
    (hother : ∀ q, q ≠ p → queue.producer q = s.queue.producer q) :
    Inv node (({ s.setCall p (.allocEvent k) with queue := queue }).accept p (.shm k)) := by
  obtain ⟨-, -, -, hnew, -⟩ := h.accept.queue.claimed p offset tail k hpc
  have hgrow : ∀ q m, m ∈ s.accepted q →
      m ∈ (({ s.setCall p (.allocEvent k) with queue := queue }).accept p (.shm k)).accepted q :=
    fun q m hm => mem_accepted_accept.mpr (.inl hm)
  have hrung := (h.rung.acceptShm (p := p) fun hk => hnew (h.rung.mem k hk)).setQueue
    (haccepted ▸ List.subset_cons_self _ _) hret
  refine ⟨h.single, h.accept.acceptShm hqueue hpc haccepted hidle hother, ?_, h.passed.mono rfl hret hgrow,
    { hrung with }⟩
  exact { h.wire with
    pool := fun n buf hb q i hq =>
      ⟨(h.wire.pool n buf hb q i hq).1, hgrow q _ (h.wire.pool n buf hb q i hq).2⟩ }

theorem Inv.produce (h : s.Inv node) {spurious : Bool}
    (hroom : s.queue.Room (.produce p spurious)) {queue : NosShmMpscQueue P}
    (hs : s.queue.step (.produce p spurious) = some queue) : (s.produce p queue).Inv node := by
  have hqueue := h.accept.queue.step hroom hs
  obtain ⟨hret, hother, hcase⟩ := NosShmMpscQueue.produce_cases hs
  rcases hcase with ⟨offset, tail, k, hpc, haccepted, hidle⟩ | ⟨hnone, haccepted, hnew⟩
  · have hproduce : s.produce p queue =
        ({ s.setCall p (.allocEvent k) with queue := queue }).accept p (.shm k) := by
      simp only [TransportLink.produce, hpc, Doorbell.afterProduce]
    rw [hproduce]
    exact h.acceptShm hqueue hpc haccepted hret hidle hother
  · have hkeep := h.setQueue hqueue haccepted hret fun q offset tail k hq => by
      by_cases hqp : q = p
      · obtain rfl := hqp
        exact .inr (hnew offset tail k hq)
      · exact .inl (hother q hqp ▸ hq)
    have hpc : Doorbell.afterProduce (s.queue.producer p) (queue.producer p) = .idle ∨
        Doorbell.afterProduce (s.queue.producer p) (queue.producer p) = .enqueue := by
      unfold Doorbell.afterProduce
      split
      · exact absurd ‹_› (hnone _ _ _)
      · exact .inl rfl
      · exact .inr rfl
    unfold TransportLink.produce
    rcases hpc with hpc | hpc
    · simp only [hpc]
      exact hkeep.setIdle
    · simp only [hpc]
      refine hkeep.setCall ?_
      rintro k (hk | ⟨chunk, hk⟩) <;> cases hk

variable [DecidableEq N] {conn : NosIpcConn (TxBuf P)} {buf : TxBuf P}

omit [DecidableEq P]

def Pushed (s t : TransportLink P N) (n : N) (buf : TxBuf P) : Prop :=
  ∀ m, t.traffic m = if m = n then s.traffic m ++ [buf] else s.traffic m

theorem Pushed.subset (hp : s.Pushed t n buf) (m : N) : s.traffic m ⊆ t.traffic m := by
  rw [hp]
  split
  · exact List.subset_append_left ..
  · exact List.Subset.refl _

theorem Pushed.mem_or (hp : s.Pushed t n buf) {m : N} {b : TxBuf P} (hb : b ∈ t.traffic m) :
    b ∈ s.traffic m ∨ m = n ∧ b = buf := by
  rw [hp] at hb
  split at hb
  · rcases List.mem_append.mp hb with hb | hb
    · exact .inl hb
    · exact .inr ⟨‹m = n›, List.mem_singleton.mp hb⟩
  · exact .inl hb

/-- An event stays ahead of the pool messages that it is ahead of. -/
theorem Pushed.ahead (hp : s.Pushed t n buf) {m : N} (hbuf : buf.mark ≠ .pool p i)
    (hahead : ∀ l b l', s.traffic m = l ++ b :: l' → b.mark = .pool p i →
      ∃ e ∈ l, e.mark = .event k) :
    ∀ l b l', t.traffic m = l ++ b :: l' → b.mark = .pool p i → ∃ e ∈ l, e.mark = .event k := by
  intro l b l' hsplit hmark
  rw [hp] at hsplit
  split at hsplit
  · rcases split_concat hsplit with ⟨-, rfl⟩ | ⟨l'', hold⟩
    · exact absurd hmark hbuf
    · exact hahead l b l'' hold hmark
  · exact hahead l b l' hsplit hmark

theorem WireInv.push (h : s.WireInv node) (hp : s.Pushed t n buf)
    (haccepted : ∀ q m, m ∈ s.accepted q → m ∈ t.accepted q) (hpassed : t.passed = s.passed)
    (hevent : ∀ k, buf.mark = .event k → IsShmEvent buf.bytes)
    (hpool : ∀ q i, buf.mark = .pool q i → node q = n ∧ .pool q i ∈ t.accepted q)
    (hlast : ∀ q i j, buf.mark = .pool q j →
      .pool q i ∈ s.accepted q ∨ .pool q i ∈ s.passed → i < j) : t.WireInv node := by
  refine ⟨fun m b hb k hk => ?_, fun m b hb q i hq => ?_, fun m => ?_, fun m b hb q i j hq hi => ?_⟩
  · rcases hp.mem_or hb with hb | ⟨-, rfl⟩
    · exact h.event m b hb k hk
    · exact hevent k hk
  · rcases hp.mem_or hb with hb | ⟨rfl, rfl⟩
    · obtain ⟨hq', hacc⟩ := h.pool m b hb q i hq
      exact ⟨hq', haccepted q _ hacc⟩
    · exact hpool q i hq
  · rw [hp]
    split
    · refine List.pairwise_append.mpr ⟨h.sorted m, List.pairwise_singleton _ _, ?_⟩
      intro a ha b hb q i j hai hbj
      rw [List.mem_singleton.mp hb] at hbj
      exact hlast q i j hbj (.inl (h.pool m a ha q i hai).2)
    · exact h.sorted m
  · rw [hpassed] at hi
    rcases hp.mem_or hb with hb | ⟨-, rfl⟩
    · exact h.behind m b hb q i j hq hi
    · exact hlast q i j hq (.inr hi)

variable [DecidableEq P]

theorem RungInv.pushPool (h : s.RungInv node)
    (hp : s.Pushed (s.setConn (node p) conn) (node p) buf) (hmark : buf.mark = .pool p i)
    (hwire : s.WireInv node) (hsent : ∀ m ∈ s.passed, ∃ q, m ∈ s.accepted q)
    (hfresh : ∀ q, .pool p i ∉ s.accepted q) :
    ((s.setConn (node p) conn).accept p (.pool p i)).RungInv node := by
  refine ⟨h.mem, fun q k hk hr hd => ?_, fun q k j hb hr hd => ?_, fun q k j hb hr hd hj => ?_⟩
  · have hk' : .shm k ∈ s.accepted q :=
      (mem_accepted_accept.mp hk).resolve_right (by rintro ⟨-, ⟨⟩⟩)
    refine (h.pending q k hk' hr hd).imp_right ?_
    rintro ⟨b, hb, hmark⟩
    exact ⟨b, hp.subset _ hb, hmark⟩
  · rcases before_accepted_accept.mp hb with hb | ⟨rfl, hk, he⟩
    · refine (h.ahead q k j hb hr hd).imp_right (hp.ahead ?_)
      rw [hmark]
      rintro ⟨⟩
      exact hfresh _ hb.right_mem
    · obtain ⟨-, rfl⟩ := SentMsg.pool.inj he
      refine (h.pending q k hk hr hd).imp_right ?_
      rintro ⟨e, he, hevent⟩ l b l' hsplit hb'
      have hconcat : s.traffic (node q) ++ [buf] = l ++ b :: l' :=
        ((hp (node q)).trans (if_pos rfl)).symm.trans hsplit
      rcases split_concat hconcat with ⟨rfl, -⟩ | ⟨l'', hold⟩
      · exact ⟨e, he, hevent⟩
      · have hmem := (hwire.pool _ b (hold ▸ List.mem_append_right l List.mem_cons_self) q _ hb').2
        exact absurd hmem (hfresh q)
  · rcases before_accepted_accept.mp hb with hb | ⟨rfl, -, he⟩
    · exact h.passed q k j hb hr hd hj
    · obtain ⟨-, rfl⟩ := SentMsg.pool.inj he
      obtain ⟨r, hr'⟩ := hsent _ hj
      exact absurd hr' (hfresh r)

theorem Inv.pushPool (h : s.Inv node) (hidle : s.call p = .idle) {bytes : Bytes}
    (hsingle : (s.setConn (node p) conn).Single)
    (hp : s.Pushed (s.setConn (node p) conn) (node p) ⟨bytes, .pool p (s.accepted p).length⟩) :
    ((s.setConn (node p) conn).accept p (.pool p (s.accepted p).length)).Inv node := by
  have hlt : ∀ q i, .pool p i ∈ s.accepted q → i < (s.accepted p).length := by
    intro q i hi
    obtain ⟨rfl, hlt⟩ := h.accept.pool_mem q p i hi
    exact hlt
  have hgrow : ∀ q m, m ∈ s.accepted q →
      m ∈ ((s.setConn (node p) conn).accept p (.pool p (s.accepted p).length)).accepted q :=
    fun q m hm => mem_accepted_accept.mpr (.inl hm)
  have hpush : s.Pushed ((s.setConn (node p) conn).accept p (.pool p (s.accepted p).length))
      (node p) ⟨bytes, .pool p (s.accepted p).length⟩ := hp
  refine ⟨hsingle, { (h.accept.acceptPool hidle) with }, ?_, h.passed.mono rfl rfl hgrow,
    h.rung.pushPool hp rfl h.wire h.passed.sent fun q hq => lt_irrefl _ (hlt q _ hq)⟩
  refine h.wire.push hpush hgrow rfl ?_ ?_ ?_
  · rintro k ⟨⟩
  · rintro q i ⟨⟩
    exact ⟨rfl, mem_accepted_accept.mpr (.inr ⟨rfl, rfl⟩)⟩
  · rintro q i j ⟨⟩ (hi | hi)
    · exact hlt p i hi
    · obtain ⟨q, hq⟩ := h.passed.sent _ hi
      exact hlt q i hq

theorem Inv.sendPool (h : s.Inv node) (hidle : s.call p = .idle) (bytes : Bytes)
    (env : EnqueueEnv Bytes) : (s.sendPool node p bytes env).Inv node := by
  have hbuf : IsTraffic ⟨bytes, .pool p (s.accepted p).length⟩ := rfl
  have htraffic := traffic_enqueue h.single (node p) env hbuf
  have hsingle := h.single.setConn (h.single.enqueue_fd (node p) env.marked
    ⟨bytes, .pool p (s.accepted p).length⟩)
  dsimp only [TransportLink.sendPool]
  split
  · rename_i conn hsend
    simp only [hsend, and_true] at htraffic hsingle
    exact h.pushPool hidle hsingle htraffic
  · rename_i hne hsend
    rw [hsend] at hsingle
    refine h.setLinks hsingle fun m => ?_
    have hst : ((s.conn (node p)).nosIpcSendEnqueueEx env.marked
        ⟨bytes, .pool p (s.accepted p).length⟩).1 ≠ .ok := by
      rw [hsend]
      exact hne
    have hkeep := htraffic m
    rw [if_neg fun hm => hst hm.2, hsend] at hkeep
    exact hkeep

omit [DecidableEq P] in
theorem RungInv.pushEvent (h : s.RungInv node)
    (hp : s.Pushed (s.setConn (node p) conn) (node p) buf) (hmark : buf.mark = .event k)
    (hk : k ∈ s.queue.accepted) (howner : ∀ q, .shm k ∈ s.accepted q → q = p)
    (hlast : ∀ q i, ¬ Before (s.accepted q) (.shm k) (.pool q i)) :
    RungInv node { s.setConn (node p) conn with rung := k :: s.rung } := by
  refine ⟨fun j hj => ?_, fun q j hj hr hd => ?_, fun q j i hb hr hd => ?_,
    fun q j i hb hr hd hi => ?_⟩
  · rcases List.mem_cons.mp hj with rfl | hj
    · exact hk
    · exact h.mem j hj
  · rcases List.mem_cons.mp hr with rfl | hr
    · obtain rfl := howner q hj
      refine .inr ⟨buf, ?_, hmark⟩
      show buf ∈ (s.setConn (node q) conn).traffic (node q)
      rw [hp, if_pos rfl]
      exact List.mem_append_right _ List.mem_cons_self
    · refine (h.pending q j hj hr hd).imp_right ?_
      rintro ⟨b, hb, hevent⟩
      exact ⟨b, hp.subset _ hb, hevent⟩
  · rcases List.mem_cons.mp hr with rfl | hr
    · exact absurd hb (hlast q i)
    · refine (h.ahead q j i hb hr hd).imp_right (hp.ahead ?_)
      rw [hmark]
      rintro ⟨⟩
  · rcases List.mem_cons.mp hr with rfl | hr
    · exact absurd hb (hlast q i)
    · exact h.passed q j i hb hr hd hi

theorem Inv.ring (h : s.Inv node) {chunk : NosServiceMsg} (hpc : s.call p = .ring k chunk)
    (env : EnqueueEnv Bytes) : (s.ring node p k chunk env).Inv node := by
  have hbuf : IsTraffic (⟨shmEvent chunk, .event k⟩ : TxBuf P) := rfl
  have htraffic := traffic_enqueue h.single (node p) env hbuf
  have hsingle := h.single.setConn (h.single.enqueue_fd (node p) env.marked
    ⟨shmEvent chunk, .event k⟩)
  obtain ⟨before, hlast, hnew⟩ := h.accept.current p k (.inr ⟨chunk, hpc⟩)
  have hk : .shm k ∈ s.accepted p := by simp [hlast]
  have hnone : ∀ q i, ¬ Before (s.accepted q) (.shm k) (.pool q i) := by
    intro q i hb
    obtain rfl := h.accept.owner q p k hb.left_mem hk
    rw [hlast] at hb
    exact hnew (hb.of_concat_notMem (by rintro ⟨⟩)).left_mem
  unfold TransportLink.ring
  split
  · rename_i conn hsend
    simp only [hsend, and_true] at htraffic hsingle
    have hp : s.Pushed (s.setConn (node p) conn) (node p) ⟨shmEvent chunk, .event k⟩ := htraffic
    have hpush : s.Pushed { (s.setConn (node p) conn).setCall p .idle with rung := k :: s.rung }
        (node p) ⟨shmEvent chunk, .event k⟩ := hp
    have hidle : (s.setCall p .idle).AcceptInv :=
      h.accept.setCall (by rintro j (hj | ⟨chunk, hj⟩) <;> cases hj)
    have hrung := h.rung.pushEvent hp rfl ((h.accept.shm_iff k).mpr ⟨p, hk⟩)
      (fun q hq => h.accept.owner q p k hq hk) hnone
    refine ⟨hsingle, { hidle with }, ?_, { h.passed with }, { hrung with }⟩
    refine h.wire.push hpush (fun q m hm => hm) rfl ?_ ?_ ?_
    · rintro j ⟨⟩
      exact isShmEvent_shmEvent chunk
    · rintro q i ⟨⟩
    · rintro q i j ⟨⟩
  · rename_i hne hsend
    have hst : ((s.conn (node p)).nosIpcSendEnqueueEx env.marked
        ⟨shmEvent chunk, .event k⟩).1 ≠ .ok := by
      rw [hsend]
      exact hne
    rw [hsend] at hsingle
    refine Inv.setIdle (h.setLinks hsingle fun m => ?_)
    have hkeep := htraffic m
    rw [if_neg fun hm => hst hm.2, hsend] at hkeep
    exact hkeep

end TransportLink

end GeminiNOS

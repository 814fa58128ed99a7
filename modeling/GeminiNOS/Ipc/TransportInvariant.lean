import GeminiNOS.Ipc.DoorbellAnswered
import GeminiNOS.Ipc.TransportOrder
import GeminiNOS.Ipc.TxOrder

/-! # The invariant of the transports

What holds of the messages that are accepted, of the buffers on the connections, of the
messages that are passed on, and of the events that are queued. An event is ahead of the
pool messages that its thread has sent after it.
-/

namespace GeminiNOS

open Foundations

namespace TransportLink

variable {P N : Type*} {node : P → N} {s t : TransportLink P N} {p : P} {n : N} {k : ℕ}

/-- What is on its way from a node to the receiver, on the socket of its connection and behind. -/
def traffic (s : TransportLink P N) (n : N) : List (TxBuf P) :=
  (s.inFlight n (s.conn n).fd ++ (s.conn n).tx.contents).filter IsTraffic

/-- Nothing but `HELLO` messages is on other sockets than that of the connection. -/
def Single (s : TransportLink P N) : Prop :=
  ∀ n fd, (s.conn n).fd ≠ fd ∨ (s.conn n).fd < 0 → (s.inFlight n fd).filter IsTraffic = []

/-- What is accepted. Claims of one thread grow, and a call that is about to queue its event has
accepted nothing after its message. -/
structure AcceptInv (s : TransportLink P N) : Prop where
  queue : s.queue.Inv
  pool_mem : ∀ p q i, .pool q i ∈ s.accepted p → q = p ∧ i < (s.accepted p).length
  pool_lt : ∀ p i j, Before (s.accepted p) (.pool p i) (.pool p j) → i < j
  shm_iff : ∀ k, k ∈ s.queue.accepted ↔ ∃ p, .shm k ∈ s.accepted p
  owner : ∀ p q k, .shm k ∈ s.accepted p → .shm k ∈ s.accepted q → p = q
  shm_lt : ∀ p j k, Before (s.accepted p) (.shm j) (.shm k) → j < k
  store_gt : ∀ p offset tail k, s.queue.producer p = .store offset tail k →
    ∀ j, .shm j ∈ s.accepted p → j < k
  current : ∀ p k, s.call p = .allocEvent k ∨ (∃ chunk, s.call p = .ring k chunk) →
    ∃ before, s.accepted p = before ++ [.shm k] ∧ .shm k ∉ before

/-- What is on the connections. The pool messages of a thread are there in their order, behind those
passed on. -/
structure WireInv (node : P → N) (s : TransportLink P N) : Prop where
  event : ∀ n, ∀ buf ∈ s.traffic n, ∀ k, buf.mark = .event k → IsShmEvent buf.bytes
  pool : ∀ n, ∀ buf ∈ s.traffic n, ∀ p i, buf.mark = .pool p i →
    node p = n ∧ .pool p i ∈ s.accepted p
  sorted : ∀ n, (s.traffic n).Pairwise fun a b =>
    ∀ p i j, a.mark = .pool p i → b.mark = .pool p j → i < j
  behind : ∀ n, ∀ buf ∈ s.traffic n, ∀ p i j, buf.mark = .pool p j →
    .pool p i ∈ s.passed → i < j

/-- What is passed on. The messages in shared memory are those of the claims that the queue has
returned. -/
structure PassedInv (s : TransportLink P N) : Prop where
  once : s.passed.Nodup
  sent : ∀ m ∈ s.passed, ∃ p, m ∈ s.accepted p
  pool : ∀ p i j, i < j → .pool p i ∈ s.passed → .pool p j ∈ s.passed →
    Before s.passed (.pool p i) (.pool p j)
  shm_iff : ∀ k, .shm k ∈ s.passed ↔ k < s.queue.returned.length
  shm : ∀ j k, j < k → k < s.queue.returned.length → Before s.passed (.shm j) (.shm k)

/-- The claim has been returned, or it will be before the next pool message is taken. -/
def Taken (s : TransportLink P N) (k : ℕ) : Prop :=
  k < s.queue.returned.length ∨ s.draining = true

/-- What queued events are good for. An event that is not yet taken is ahead of the pool messages
that its thread has sent after it. -/
structure RungInv (node : P → N) (s : TransportLink P N) : Prop where
  mem : ∀ k ∈ s.rung, k ∈ s.queue.accepted
  pending : ∀ p k, .shm k ∈ s.accepted p → k ∈ s.rung → k ∉ s.discarded →
    s.Taken k ∨ ∃ buf ∈ s.traffic (node p), buf.mark = .event k
  ahead : ∀ p k i, Before (s.accepted p) (.shm k) (.pool p i) → k ∈ s.rung → k ∉ s.discarded →
    s.Taken k ∨ ∀ l buf l', s.traffic (node p) = l ++ buf :: l' → buf.mark = .pool p i →
      ∃ e ∈ l, e.mark = .event k
  passed : ∀ p k i, Before (s.accepted p) (.shm k) (.pool p i) → k ∈ s.rung →
    k ∉ s.discarded → .pool p i ∈ s.passed → Before s.passed (.shm k) (.pool p i)

structure Inv (node : P → N) (s : TransportLink P N) : Prop where
  single : s.Single
  accept : s.AcceptInv
  wire : s.WireInv node
  passed : s.PassedInv
  rung : s.RungInv node

theorem Inv.inOrder (h : s.Inv node) : s.InOrder where
  once := h.passed.once
  sent := h.passed.sent
  pool p i j hbefore := h.passed.pool p i j (h.accept.pool_lt p i j hbefore)
  shm p j k hbefore hk :=
    h.passed.shm j k (h.accept.shm_lt p j k hbefore) ((h.passed.shm_iff k).mp hk)
  shmPool := h.rung.passed

theorem inv_init : (init : TransportLink P N).Inv node := by
  have htraffic : ∀ n, (init : TransportLink P N).traffic n = [] := by
    intro n
    rw [traffic, init, NosIpcConn.create, RingBuffer.contents_init]
    rfl
  refine ⟨fun n fd _ => rfl, ⟨NosShmMpscQueue.inv_empty, ?_, ?_, ?_, ?_, ?_, ?_, ?_⟩, ⟨?_, ?_, ?_, ?_⟩,
    ⟨List.nodup_nil, ?_, ?_, ?_, ?_⟩, ⟨?_, ?_, ?_, ?_⟩⟩
  · exact fun p q i hi => absurd hi List.not_mem_nil
  · exact fun p i j hb => absurd hb not_before_nil
  · exact fun k => iff_of_false List.not_mem_nil fun hk => hk.elim fun p => List.not_mem_nil
  · exact fun p q k hk => absurd hk List.not_mem_nil
  · exact fun p j k hb => absurd hb not_before_nil
  · rintro p offset tail k ⟨⟩
  · rintro p k (hp | ⟨chunk, hp⟩) <;> cases hp
  · exact fun n buf hb => absurd (htraffic n ▸ hb) List.not_mem_nil
  · exact fun n buf hb => absurd (htraffic n ▸ hb) List.not_mem_nil
  · exact fun n => by rw [htraffic]; exact List.Pairwise.nil
  · exact fun n buf hb => absurd (htraffic n ▸ hb) List.not_mem_nil
  · exact fun m hm => absurd hm List.not_mem_nil
  · exact fun p i j _ hi => absurd hi List.not_mem_nil
  · exact fun k => iff_of_false List.not_mem_nil (Nat.not_lt_zero k)
  · exact fun j k _ hk => absurd hk (Nat.not_lt_zero k)
  · exact fun k hk => absurd hk List.not_mem_nil
  · exact fun p k hk => absurd hk List.not_mem_nil
  · exact fun p k i hb => absurd hb not_before_nil
  · exact fun p k i hb => absurd hb not_before_nil

section Traffic

variable [DecidableEq N] {conn : NosIpcConn (TxBuf P)} {bufs : List (TxBuf P)} {buf : TxBuf P}
  {fd : Fd}

omit [DecidableEq N] in
/-- A connection that goes to another socket leaves nothing on the one that it had. -/
theorem Single.filter_inFlight (h : s.Single)
    (hfd : conn.fd = (s.conn n).fd ∨ (s.inFlight n (s.conn n).fd).filter IsTraffic = []) :
    (s.inFlight n conn.fd).filter IsTraffic = (s.inFlight n (s.conn n).fd).filter IsTraffic := by
  by_cases hsame : conn.fd = (s.conn n).fd
  · rw [hsame]
  · rw [hfd.resolve_left hsame]
    exact h n conn.fd (.inl (Ne.symm hsame))

theorem Single.setConn (h : s.Single)
    (hfd : conn.fd = (s.conn n).fd ∨ (s.inFlight n (s.conn n).fd).filter IsTraffic = []) :
    (s.setConn n conn).Single := by
  intro m fd hm
  change (Function.update s.conn n conn m).fd ≠ fd ∨ (Function.update s.conn n conn m).fd < 0 at hm
  rw [Function.update_apply] at hm
  split at hm
  · obtain rfl := ‹m = n›
    rcases hfd with hfd | hnone
    · rw [hfd] at hm
      exact h m fd hm
    · by_cases hsame : (s.conn m).fd = fd
      · exact hsame ▸ hnone
      · exact h m fd (.inl hsame)
  · exact h m fd hm

theorem Single.setInFlight (h : s.Single)
    (hbufs : (s.conn n).fd ≠ fd ∨ (s.conn n).fd < 0 → bufs.filter IsTraffic = []) :
    (s.setInFlight n fd bufs).Single := by
  intro m fd' hm
  show (Function.update s.inFlight n _ m fd').filter IsTraffic = []
  rw [Function.update_apply]
  split
  · obtain rfl := ‹m = n›
    rw [Function.update_apply]
    split
    · exact hbufs (‹fd' = fd› ▸ hm)
    · exact h m fd' hm
  · exact h m fd' hm

theorem traffic_setConn (h : s.Single)
    (hfd : conn.fd = (s.conn n).fd ∨ (s.inFlight n (s.conn n).fd).filter IsTraffic = [])
    {new : List (TxBuf P)} (hnew : conn.tx.contents = (s.conn n).tx.contents ++ new) (m : N) :
    (s.setConn n conn).traffic m =
      if m = n then s.traffic m ++ new.filter IsTraffic else s.traffic m := by
  show (s.inFlight m (Function.update s.conn n conn m).fd ++
    (Function.update s.conn n conn m).tx.contents).filter IsTraffic = _
  rw [Function.update_apply]
  split
  · obtain rfl := ‹m = n›
    rw [traffic, hnew, ← List.append_assoc, List.filter_append, List.filter_append,
      List.filter_append, h.filter_inFlight hfd]
  · rfl

theorem traffic_setConn_same (h : s.Single)
    (hfd : conn.fd = (s.conn n).fd ∨ (s.inFlight n (s.conn n).fd).filter IsTraffic = [])
    (hsame : conn.tx.contents = (s.conn n).tx.contents) (m : N) :
    (s.setConn n conn).traffic m = s.traffic m := by
  rw [traffic_setConn h hfd (hsame.trans (List.append_nil _).symm), List.filter_nil,
    List.append_nil, ite_self]

theorem traffic_txTurn {sent : List (TxBuf P)} (hfd : conn.fd = (s.conn n).fd)
    (h : (s.conn n).tx.contents = sent ++ conn.tx.contents) (m : N) :
    ((s.setConn n conn).setInFlight n (s.conn n).fd
      (s.inFlight n (s.conn n).fd ++ sent)).traffic m = s.traffic m := by
  show (Function.update s.inFlight n _ m (Function.update s.conn n conn m).fd ++
    (Function.update s.conn n conn m).tx.contents).filter IsTraffic = _
  rw [Function.update_apply, Function.update_apply]
  split
  · obtain rfl := ‹m = n›
    rw [hfd, Function.update_self, List.append_assoc, ← h]
    rfl
  · rfl

/-- The traffic of the other nodes stays, and a `HELLO` that is taken is none. -/
theorem traffic_pop (hsingle : s.Single) (h : s.inFlight n fd = buf :: bufs) :
    (∀ m, m ≠ n → (s.setInFlight n fd bufs).traffic m = s.traffic m) ∧
      ((∃ bytes, buf = ⟨bytes, .hello⟩) ∧ (s.setInFlight n fd bufs).traffic n = s.traffic n ∨
        IsTraffic buf ∧ s.traffic n = buf :: (s.setInFlight n fd bufs).traffic n) := by
  constructor
  · intro m hm
    show (Function.update s.inFlight n _ m _ ++ _).filter IsTraffic = _
    rw [Function.update_of_ne hm]
    rfl
  · have hpop : (s.setInFlight n fd bufs).traffic n =
        (Function.update (s.inFlight n) fd bufs (s.conn n).fd ++
          (s.conn n).tx.contents).filter IsTraffic := by
      show (Function.update s.inFlight n _ n _ ++ _).filter IsTraffic = _
      rw [Function.update_self]
      rfl
    have hhello : IsTraffic buf = false → ∃ bytes, buf = ⟨bytes, .hello⟩ := by
      obtain ⟨bytes, mark⟩ := buf
      cases mark with
      | hello => exact fun _ => ⟨bytes, rfl⟩
      | pool p i => rintro ⟨⟩
      | event k => rintro ⟨⟩
    rw [hpop]
    by_cases hcurrent : (s.conn n).fd = fd
    · rw [hcurrent, Function.update_self, traffic, hcurrent, h, List.cons_append]
      cases hbuf : IsTraffic buf with
      | true => exact .inr ⟨rfl, List.filter_cons_of_pos hbuf⟩
      | false => exact .inl ⟨hhello hbuf, (List.filter_cons_of_neg (by simp [hbuf])).symm⟩
    · rw [Function.update_of_ne hcurrent]
      have hnone := hsingle n fd (.inl hcurrent)
      rw [h, List.filter_eq_nil_iff] at hnone
      exact .inl ⟨hhello (by simpa using hnone buf List.mem_cons_self), rfl⟩

theorem Single.pop (h : s.Single) (hflight : s.inFlight n fd = buf :: bufs) :
    (s.setInFlight n fd bufs).Single := by
  refine h.setInFlight fun hother => ?_
  have hnone := h n fd hother
  rw [hflight, List.filter_eq_nil_iff] at hnone
  exact List.filter_eq_nil_iff.mpr fun b hb => hnone b (List.mem_cons_of_mem buf hb)

omit [DecidableEq N] in
theorem Single.enqueue_fd (h : s.Single) (n : N) (env : EnqueueEnv (TxBuf P)) (buf : TxBuf P) :
    ((s.conn n).nosIpcSendEnqueueEx env buf).2.fd = (s.conn n).fd ∨
      (s.inFlight n (s.conn n).fd).filter IsTraffic = [] := by
  rcases NosIpcConn.link_enqueue (s.conn n) env buf with ⟨-, hfd, -⟩ | ⟨fd, hre, -⟩
  · exact .inl hfd
  · exact .inr (h n _ (.inr hre.1))

/-- An enqueue puts its buffer behind the traffic of its node, if it succeeds. -/
theorem traffic_enqueue (h : s.Single) (n : N) (env : EnqueueEnv Bytes)
    (hbuf : IsTraffic buf) (m : N) :
    (s.setConn n ((s.conn n).nosIpcSendEnqueueEx env.marked buf).2).traffic m =
      if m = n ∧ ((s.conn n).nosIpcSendEnqueueEx env.marked buf).1 = .ok then s.traffic m ++ [buf]
      else s.traffic m := by
  have hhello : ((s.conn n).helloOf env.marked).filter IsTraffic = [] := by
    rw [List.filter_eq_nil_iff]
    intro b hb
    unfold NosIpcConn.helloOf NosIpcConn.helloPut at hb
    split at hb
    · split at hb
      · cases hb
      · obtain ⟨bytes, -, rfl⟩ := Option.map_eq_some_iff.mp (Option.mem_toList.mp hb)
        simp [IsTraffic]
    · cases hb
  rw [traffic_setConn h (h.enqueue_fd n env.marked buf)
    ((s.conn n).contents_enqueue env.marked buf), List.filter_append, hhello, List.nil_append]
  by_cases hm : m = n
  · by_cases hok : ((s.conn n).nosIpcSendEnqueueEx env.marked buf).1 = .ok
    · simp [hm, hok, hbuf]
    · simp [hm, hok]
  · simp [hm]

end Traffic

theorem PassedInv.mono (h : s.PassedInv) (hpassed : t.passed = s.passed)
    (hret : t.queue.returned = s.queue.returned)
    (haccepted : ∀ p m, m ∈ s.accepted p → m ∈ t.accepted p) : t.PassedInv := by
  constructor
  · exact hpassed ▸ h.once
  · intro m hm
    obtain ⟨p, hp⟩ := h.sent m (hpassed ▸ hm)
    exact ⟨p, haccepted p m hp⟩
  · exact hpassed ▸ h.pool
  · rw [hpassed, hret]
    exact h.shm_iff
  · rw [hpassed, hret]
    exact h.shm

theorem PassedInv.passShm (h : s.PassedInv) (haccepted : t.accepted = s.accepted)
    (hsent : ∃ p, .shm s.queue.returned.length ∈ s.accepted p)
    (hpassed : t.passed = s.passed ++ [.shm s.queue.returned.length])
    (hret : t.queue.returned.length = s.queue.returned.length + 1) : t.PassedInv := by
  have hfresh : .shm s.queue.returned.length ∉ s.passed := fun hk =>
    lt_irrefl _ ((h.shm_iff _).mp hk)
  have hpool : ∀ p i, .pool p i ∈ t.passed → .pool p i ∈ s.passed := by
    simp [hpassed]
  constructor
  · rw [hpassed]
    refine List.nodup_append.mpr ⟨h.once, by simp, ?_⟩
    rintro m hm m' hm' rfl
    exact hfresh (List.mem_singleton.mp hm' ▸ hm)
  · intro m hm
    rw [hpassed] at hm
    rw [haccepted]
    rcases List.mem_append.mp hm with hm | hm
    · exact h.sent m hm
    · exact List.mem_singleton.mp hm ▸ hsent
  · intro p i j hij hi hj
    have hbefore := h.pool p i j hij (hpool p i hi) (hpool p j hj)
    rw [hpassed]
    exact hbefore.append _
  · intro k
    rw [hpassed, List.mem_append, h.shm_iff, List.mem_singleton, SentMsg.shm.injEq, hret]
    omega
  · intro j k hjk hk
    rw [hret] at hk
    rw [hpassed]
    rcases Nat.lt_succ_iff_lt_or_eq.mp hk with hlt | rfl
    · exact (h.shm j k hjk hlt).append _
    · exact before_concat.mpr (.inr ⟨(h.shm_iff j).mpr hjk, rfl⟩)

theorem PassedInv.passPool (h : s.PassedInv) {i : ℕ} (haccepted : t.accepted = s.accepted)
    (hsent : .pool p i ∈ s.accepted p) (hless : ∀ j, .pool p j ∈ s.passed → j < i)
    (hpassed : t.passed = s.passed ++ [.pool p i])
    (hret : t.queue.returned = s.queue.returned) : t.PassedInv := by
  have hmem : ∀ m, m ∈ t.passed ↔ m ∈ s.passed ∨ m = .pool p i := by
    intro m
    rw [hpassed, List.mem_append, List.mem_singleton]
  constructor
  · rw [hpassed]
    refine List.nodup_append.mpr ⟨h.once, by simp, ?_⟩
    rintro m hm m' hm' rfl
    rw [List.mem_singleton.mp hm'] at hm
    exact lt_irrefl i (hless i hm)
  · intro m hm
    rw [haccepted]
    rcases (hmem m).mp hm with hm | rfl
    · exact h.sent m hm
    · exact ⟨p, hsent⟩
  · intro q j l hjl hj hl
    rw [hpassed]
    rcases (hmem _).mp hl with hl | hl
    · rcases (hmem _).mp hj with hj | hj
      · exact (h.pool q j l hjl hj hl).append _
      · obtain ⟨rfl, rfl⟩ := SentMsg.pool.inj hj
        exact absurd (hless l hl) (by omega)
    · obtain ⟨rfl, rfl⟩ := SentMsg.pool.inj hl
      rcases (hmem _).mp hj with hj | hj
      · exact before_concat.mpr (.inr ⟨hj, rfl⟩)
      · obtain ⟨-, rfl⟩ := SentMsg.pool.inj hj
        exact absurd hjl (lt_irrefl _)
  · intro k
    rw [hmem, hret, ← h.shm_iff]
    simp
  · intro j k hjk hk
    rw [hret] at hk
    rw [hpassed]
    exact (h.shm j k hjk hk).append _

theorem Inv.setLinks (h : s.Inv node) {conn : N → NosIpcConn (TxBuf P)}
    {inFlight : N → Fd → List (TxBuf P)}
    (hsingle : Single { s with conn := conn, inFlight := inFlight })
    (htraffic : ∀ m, traffic { s with conn := conn, inFlight := inFlight } m = s.traffic m) :
    Inv node { s with conn := conn, inFlight := inFlight } := by
  refine ⟨hsingle, { h.accept with }, ⟨fun m => ?_, fun m => ?_, fun m => ?_, fun m => ?_⟩,
    { h.passed with }, ⟨h.rung.mem, fun p k hk hr hd => ?_, fun p k i hb hr hd => ?_,
    h.rung.passed⟩⟩
  · rw [htraffic]
    exact h.wire.event m
  · rw [htraffic]
    exact h.wire.pool m
  · rw [htraffic]
    exact h.wire.sorted m
  · rw [htraffic]
    exact h.wire.behind m
  · rw [htraffic]
    exact h.rung.pending p k hk hr hd
  · rw [htraffic]
    exact h.rung.ahead p k i hb hr hd

variable {queue : NosShmMpscQueue P}

theorem AcceptInv.setQueue (h : s.AcceptInv) (hqueue : queue.Inv)
    (haccepted : queue.accepted = s.queue.accepted)
    (hstore : ∀ q offset tail k, queue.producer q = .store offset tail k →
      s.queue.producer q = .store offset tail k ∨ k = s.queue.claims.length) :
    AcceptInv { s with queue := queue } := by
  refine
    { h with
      queue := hqueue
      shm_iff := fun k => ?_
      store_gt := fun q offset tail k hq j hj => ?_ }
  · show k ∈ queue.accepted ↔ _
    rw [haccepted]
    exact h.shm_iff k
  · rcases hstore q offset tail k hq with hold | rfl
    · exact h.store_gt q offset tail k hold j hj
    · exact h.queue.accepted_lt j ((h.shm_iff j).mpr ⟨q, hj⟩)

theorem RungInv.setQueue (h : s.RungInv node)
    (haccepted : s.queue.accepted ⊆ queue.accepted) (hret : queue.returned = s.queue.returned) :
    RungInv node { s with queue := queue } := by
  have htaken : ∀ k, Taken { s with queue := queue } k ↔ s.Taken k := by
    intro k
    rw [Taken, Taken, hret]
  refine ⟨fun k hk => haccepted (h.mem k hk), fun p k hk hr hd => ?_, fun p k i hb hr hd => ?_,
    h.passed⟩
  · rw [htaken]
    exact h.pending p k hk hr hd
  · rw [htaken]
    exact h.ahead p k i hb hr hd

theorem Inv.setQueue (h : s.Inv node) (hqueue : queue.Inv)
    (haccepted : queue.accepted = s.queue.accepted) (hret : queue.returned = s.queue.returned)
    (hstore : ∀ q offset tail k, queue.producer q = .store offset tail k →
      s.queue.producer q = .store offset tail k ∨ k = s.queue.claims.length) :
    Inv node { s with queue := queue } where
  single := h.single
  accept := h.accept.setQueue hqueue haccepted hstore
  wire := { h.wire with }
  passed := h.passed.mono rfl hret fun _ _ hm => hm
  rung := h.rung.setQueue (haccepted ▸ List.Subset.refl _) hret

end TransportLink

end GeminiNOS

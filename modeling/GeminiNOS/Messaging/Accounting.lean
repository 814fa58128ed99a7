import GeminiNOS.Messaging.Custody
import GeminiNOS.Shm.MpscQueueOrder

/-! # The account of accepted messages

A message that a send has accepted, and whose service stays bound, is at a place on its
way or is settled. A send keeps the account, and so does what takes a buffer from its
place if it can pass it on.
-/

namespace GeminiNOS

open Foundations

namespace NosShmMpscQueue

variable {P : Type*} {q q' : NosShmMpscQueue P}

theorem consume_returned (h : q.consume = some q') :
    q'.claims = q.claims ∧ q'.producer = q.producer ∧
      ((∀ head offset, q.consumer ≠ .advance head offset) ∧ q'.returned = q.returned ∨
        ∃ head offset, q.consumer = .advance head offset ∧
          q'.returned = q.returned ++ [offset]) := by
  unfold NosShmMpscQueue.consume at h
  cases hc : q.consumer with
  | idle => simp [hc] at h
  | loadHead =>
    simp only [hc, Option.some.injEq] at h
    subst h
    simp
  | loadTail head =>
    simp only [hc] at h
    split at h <;> obtain rfl := Option.some.inj h <;> simp
  | spin head =>
    simp only [hc] at h
    split at h <;> obtain rfl := Option.some.inj h <;> simp
  | clear head offset =>
    simp only [hc, Option.some.injEq] at h
    subst h
    simp
  | advance head offset =>
    simp only [hc, Option.some.injEq] at h
    subst h
    simp

variable [DecidableEq P] {p : P} {spurious : Bool}

theorem produce_claims (h : q.produce p spurious = some q') :
    q'.returned = q.returned ∧
      ((∃ pc, (q.producer p).Unclaimed ∧ pc.Unclaimed ∧ q' = q.setProducer p pc) ∨
      (∃ offset, q.producer p = .cas offset q.tail ∧ q'.claims = q.claims ++ [offset] ∧
        q'.producer = Function.update q.producer p (.store offset q.tail q.claims.length)) ∨
      ∃ offset tail ticket, q.producer p = .store offset tail ticket ∧ q'.claims = q.claims ∧
        q'.producer = Function.update q.producer p .idle) := by
  unfold NosShmMpscQueue.produce at h
  cases hp : q.producer p with
  | idle => simp [hp] at h
  | loadTail offset =>
    simp only [hp, Option.some.injEq] at h
    exact ⟨h ▸ rfl, .inl ⟨.loadHead offset q.tail, trivial, trivial, h.symm⟩⟩
  | loadHead offset tail =>
    simp only [hp] at h
    split at h <;> obtain rfl := Option.some.inj h
    · exact ⟨rfl, .inl ⟨.idle, trivial, trivial, rfl⟩⟩
    · exact ⟨rfl, .inl ⟨.cas offset tail, trivial, trivial, rfl⟩⟩
  | cas offset tail =>
    simp only [hp] at h
    split at h <;> rename_i hcas <;> obtain rfl := Option.some.inj h
    · obtain ⟨rfl, -⟩ := hcas
      exact ⟨rfl, .inr (.inl ⟨offset, rfl, rfl, rfl⟩)⟩
    · exact ⟨rfl, .inl ⟨.loadTail offset, trivial, trivial, rfl⟩⟩
  | store offset tail ticket =>
    simp only [hp, Option.some.injEq] at h
    subst h
    exact ⟨rfl, .inr (.inr ⟨offset, tail, ticket, rfl, rfl, rfl⟩)⟩

end NosShmMpscQueue

/-- A call agrees with the producer that it is in the receive queue, and with the message of its
claim. -/
def CallSound (claimed : List MsgBuf) (producer : EnqueuePc) : MailPc → Prop
  | .enqueue _ buf => (∃ i, buf.msg = some (.shm i)) ∧
    ∀ offset tail ticket, producer = .store offset tail ticket → claimed[ticket]? = some buf
  | _ => producer = .idle

theorem CallSound.append {claimed : List MsgBuf} {producer : EnqueuePc} {pc : MailPc}
    (h : CallSound claimed producer pc) (bs : List MsgBuf) :
    CallSound (claimed ++ bs) producer pc := by
  cases pc with
  | enqueue udsPath buf =>
    refine ⟨h.1, fun offset tail ticket hp => ?_⟩
    have hget := h.2 offset tail ticket hp
    have hlt := (List.getElem?_eq_some_iff.mp hget).1
    rw [List.getElem?_append_left hlt, hget]
  | _ => exact h

/-- The calls of the threads of a node agree with the receive queue of the other. -/
structure MailSound {T : Type*} (queue : NosShmMpscQueue T) (claimed : List MsgBuf)
    (call : T → MailPc) : Prop where
  inv : queue.Inv
  length : claimed.length = queue.claims.length
  calls : ∀ th, CallSound claimed (queue.producer th) (call th)

namespace MailSound

variable {T : Type*} {queue queue' : NosShmMpscQueue T} {claimed : List MsgBuf}
  {call : T → MailPc} {pc : MailPc} {producer : EnqueuePc} {udsPath : String} {buf : MsgBuf}
  {offset tail ticket : ℕ} {th : T}

theorem consumer (h : MailSound queue claimed call) (hinv : queue'.Inv)
    (hclaims : queue'.claims = queue.claims) (hproducer : queue'.producer = queue.producer) :
    MailSound queue' claimed call where
  inv := hinv
  length := by rw [h.length, hclaims]
  calls := hproducer ▸ h.calls

variable [DecidableEq T]

theorem calls_update {producers : T → EnqueuePc}
    (h : ∀ u, CallSound claimed (producers u) (call u)) (hth : CallSound claimed producer pc)
    (u : T) :
    CallSound claimed (Function.update producers th producer u) (Function.update call th pc u) := by
  by_cases hu : u = th
  · subst hu
    rw [Function.update_self, Function.update_self]
    exact hth
  · rw [Function.update_of_ne hu, Function.update_of_ne hu]
    exact h u

theorem setCall (h : MailSound queue claimed call) (hidle : queue.producer th = .idle)
    (hpc : CallSound claimed .idle pc) : MailSound queue claimed (Function.update call th pc) where
  inv := h.inv
  length := h.length
  calls := by
    have hcalls : ∀ u, CallSound claimed (Function.update queue.producer th .idle u)
        (Function.update call th pc u) := calls_update h.calls hpc
    rwa [← hidle, Function.update_eq_self] at hcalls

theorem move (h : MailSound queue claimed call) (hinv : queue'.Inv)
    (hclaims : queue'.claims = queue.claims)
    (hproducer : queue'.producer = Function.update queue.producer th producer)
    (hth : CallSound claimed producer pc) :
    MailSound queue' claimed (Function.update call th pc) where
  inv := hinv
  length := by rw [h.length, hclaims]
  calls := by
    rw [hproducer]
    exact calls_update h.calls hth

theorem setProducer (h : MailSound queue claimed call) (hinv : (queue.setProducer th producer).Inv)
    (hth : CallSound claimed producer (call th)) :
    MailSound (queue.setProducer th producer) claimed call := by
  have hmove := h.move hinv rfl rfl hth
  rwa [Function.update_eq_self] at hmove

theorem start (h : MailSound queue claimed call) (hidle : call th = .idle) (hoffset : offset ≠ 0)
    (hbuf : ∃ i, buf.msg = some (.shm i)) :
    MailSound (queue.setProducer th (.loadTail offset)) claimed
      (Function.update call th (.enqueue udsPath buf)) := by
  have hp : queue.producer th = .idle := by simpa [CallSound, hidle] using h.calls th
  have hinv : (queue.setProducer th (.loadTail offset)).Inv :=
    h.inv.setProducer (by rw [hp]; trivial) trivial hoffset
  exact h.move hinv rfl rfl ⟨hbuf, fun _ _ _ hp => nomatch hp⟩

theorem claim (h : MailSound queue claimed call) (hcall : call th = .enqueue udsPath buf)
    (hinv : queue'.Inv) (hclaims : queue'.claims = queue.claims ++ [offset])
    (hproducer : queue'.producer =
      Function.update queue.producer th (.store offset tail queue.claims.length)) :
    MailSound queue' (claimed ++ [buf]) call where
  inv := hinv
  length := by simp [h.length, hclaims]
  calls := by
    have hshm := h.calls th
    rw [hcall] at hshm
    have hth : CallSound (claimed ++ [buf]) (.store offset tail queue.claims.length) (call th) := by
      rw [hcall]
      refine ⟨hshm.1, ?_⟩
      rintro _ _ _ ⟨⟩
      rw [← h.length, List.getElem?_concat_length]
    have hall : ∀ u, CallSound (claimed ++ [buf]) (queue.producer u) (call u) :=
      fun u => (h.calls u).append [buf]
    have hcalls : ∀ u, CallSound (claimed ++ [buf]) (Function.update queue.producer th _ u)
        (Function.update call th (call th) u) := calls_update hall hth
    rwa [← hproducer, Function.update_eq_self] at hcalls

end MailSound

/-- The message in a buffer, if there is one, is a pool message with a number that is in use. -/
def MsgBuf.Pooled (next : ℕ) (buf : MsgBuf) : Prop := ∀ id ∈ buf.msg, ∃ i < next, id = .pool i

theorem MsgBuf.Pooled.mono {next next' : ℕ} {buf : MsgBuf} (h : buf.Pooled next)
    (hle : next ≤ next') : buf.Pooled next' := by
  intro id hid
  obtain ⟨i, hi, rfl⟩ := h id hid
  exact ⟨i, hi.trans_le hle, rfl⟩

namespace NodePair

variable {T K C : Type*}

/-- The account. Every message that is owed has a service that is bound, and is settled, by at most
one of the counters. Only pool messages are on the links and are counted. -/
structure Accountable (s : NodePair T K C) : Prop where
  mail : ∀ n, MailSound (s.queue (!n)) (s.claimed (!n)) (s.call n)
  links : ∀ p : Place T K, p.IsLink → ∀ buf ∈ s.bufs p, buf.Pooled s.next
  counted : ∀ c id, (c, id) ∈ s.counted → ∃ i < s.next, id = .pool i
  bound : ∀ m ∈ s.owed, (s.registry m.receiver).Binds m.service
  settled : ∀ m ∈ s.owed, s.Settled m
  once : ∀ m ∈ s.owed, ∀ c c', (c, m.id) ∈ s.counted → (c', m.id) ∈ s.counted → c = c'

variable {s t : NodePair T K C} {leaves comes : Place T K → MsgBuf → Prop}
  {counts : IpcCounter → MsgBuf → Prop} {n : Bool} {m : AcceptedMsg} {buf : MsgBuf}

namespace Accountable

/-- What keeps the account: messages that leave their places stay settled, only pool messages come
to the links, and no message that is owed is counted by a second counter. -/
theorem passage (h : s.Accountable) (hp : Passage s t leaves comes counts)
    (hregistry : t.registry = s.registry) (howed : t.owed = s.owed)
    (hmail : ∀ n, MailSound (t.queue (!n)) (t.claimed (!n)) (t.call n))
    (hleaves : ∀ m ∈ s.owed, ∀ p b, p.receiver = m.receiver → b ∈ s.bufs p → b.Carries m →
      leaves p b → t.Settled m)
    (hcomes : ∀ p b, p.IsLink → comes p b → b.Pooled t.next)
    (hcounts : ∀ c b, counts c b → b.Pooled t.next ∧ (∀ c' b', counts c' b' → c' = c) ∧
      ∀ m ∈ s.owed, b.msg = some m.id → ∀ c', (c', m.id) ∈ s.counted → c' = c) :
    t.Accountable where
  mail := hmail
  links p hlink b hb := by
    rcases hp.moves.come p b hb with hb | hb
    · exact (h.links p hlink b hb).mono hp.next_le
    · exact hcomes p b hlink hb
  counted c id hx := by
    rcases hp.counts c id hx with hx | ⟨b, hb, hid⟩
    · obtain ⟨i, hi, rfl⟩ := h.counted c id hx
      exact ⟨i, hi.trans_le hp.next_le, rfl⟩
    · exact (hcounts c b hb).1 id hid
  bound m hm := by
    rw [howed] at hm
    rw [hregistry]
    exact h.bound m hm
  settled m hm := by
    rw [howed] at hm
    exact hp.settled (h.settled m hm) fun p b => hleaves m hm p b
  once m hm c c' hc hc' := by
    rw [howed] at hm
    rcases hp.counts c m.id hc with hc | ⟨b, hb, hid⟩ <;>
      rcases hp.counts c' m.id hc' with hc' | ⟨b', hb', hid'⟩
    · exact h.once m hm c c' hc hc'
    · exact (hcounts c' b' hb').2.2 m hm hid' c hc
    · exact ((hcounts c b hb).2.2 m hm hid c' hc').symm
    · exact ((hcounts c b hb).2.1 c' b' hb').symm

theorem frame (h : s.Accountable) (hf : Frame s t) (hp : Passage s t leaves comes counts)
    (hleaves : ∀ m ∈ s.owed, ∀ p b, p.receiver = m.receiver → b ∈ s.bufs p → b.Carries m →
      leaves p b → t.Settled m)
    (hcomes : ∀ p b, p.IsLink → comes p b → b.Pooled t.next)
    (hcounts : ∀ c b, counts c b → b.Pooled t.next ∧ (∀ c' b', counts c' b' → c' = c) ∧
      ∀ m ∈ s.owed, b.msg = some m.id → ∀ c', (c', m.id) ∈ s.counted → c' = c) :
    t.Accountable := by
  refine h.passage hp hf.registry hf.owed (fun n => ?_) hleaves hcomes hcounts
  rw [hf.queue, hf.claimed, hf.call]
  exact h.mail n

theorem quiet (h : s.Accountable) (hbufs : t.bufs = s.bufs) (hnext : t.next = s.next)
    (hdispatched : t.dispatched = s.dispatched) (hcounted : t.counted = s.counted)
    (hregistry : t.registry = s.registry) (howed : t.owed = s.owed)
    (hmail : ∀ n, MailSound (t.queue (!n)) (t.claimed (!n)) (t.call n)) : t.Accountable := by
  have hp : Passage s t Stays Stays fun _ _ => False :=
    .of_eq hbufs hnext hdispatched hcounted
  exact h.passage hp hregistry howed hmail (fun _ _ _ _ _ _ _ hl => hl.elim)
    (fun _ _ _ hc => hc.elim) fun _ _ hc => hc.elim

/-- A message is accepted that is settled and not counted twice. -/
theorem accept (h : s.Accountable) (n : Bool) (buf : MsgBuf)
    (hsettled : ∀ id, buf.msg = some id → s.Settled ⟨id, n, buf.dstService⟩)
    (honce : ∀ id, buf.msg = some id → ∀ c c', (c, id) ∈ s.counted → (c', id) ∈ s.counted →
      c = c') : (s.accept n buf).Accountable := by
  unfold NodePair.accept
  split
  · exact h
  · rename_i id hid
    split
    · refine ⟨h.mail, h.links, h.counted, ?_, ?_, ?_⟩
      · exact List.forall_mem_cons.mpr ⟨‹_›, h.bound⟩
      · exact List.forall_mem_cons.mpr ⟨hsettled id hid, h.settled⟩
      · exact List.forall_mem_cons.mpr ⟨honce id hid, h.once⟩
    · exact h

theorem next_succ (h : s.Accountable) :
    ({ s with next := s.next + 1 } : NodePair T K C).Accountable where
  mail := h.mail
  links p hlink b hb := (h.links p hlink b hb).mono (Nat.le_succ s.next)
  counted c id hx := by
    obtain ⟨i, hi, rfl⟩ := h.counted c id hx
    exact ⟨i, Nat.lt_succ_of_lt hi, rfl⟩
  bound := h.bound
  settled := h.settled
  once := h.once

theorem not_counted (h : s.Accountable) (env : SendEnv K) (c : IpcCounter) :
    (c, env.msgId s.next) ∉ s.counted := by
  intro hx
  obtain ⟨i, hi, he⟩ := h.counted c _ hx
  unfold SendEnv.msgId at he
  split at he
  · cases he
  · cases he
    exact lt_irrefl _ hi

theorem receiver_of_routesAway {serviceId : ℕ} (h : (s.registry n).RoutesAway serviceId) :
    s.receiver n serviceId = !n := if_pos h

theorem receiver_of_local {serviceId : ℕ} {entry : ServiceSlot C T}
    (h : entry ∈ (s.registry n).findServiceEntry serviceId) (hlocal : entry.isRemote = false) :
    s.receiver n serviceId = n := by
  apply if_neg
  rintro ⟨entry', hentry', haway⟩
  obtain rfl := Option.mem_unique h hentry'
  rw [hlocal] at haway
  cases haway

section Sends

variable [DecidableEq T] [DecidableEq K] {th : T} {env : SendEnv K}

theorem localSend (h : s.Accountable) (n : Bool) (buf : MsgBuf) (thread : Option T) :
    (s.nosTransportLocalSend n buf thread).2.Accountable := by
  have hp : Passage s _ Stays (Queued n buf) fun _ _ => False :=
    s.passage_nosTransportLocalSend n buf thread
  refine h.frame ?_ hp (fun _ _ _ _ _ _ _ hl => hl.elim) ?_ fun _ _ hc => hc.elim
  · exact s.frame_nosTransportLocalSend n buf thread
  · rintro p b hlink ⟨⟨th, rfl⟩, -⟩
    exact hlink.elim

theorem enqueueEx (h : s.Accountable) (n : Bool) (udsPath : String) (env : SendEnv K)
    (hbuf : buf.Pooled s.next) (hcounts : ∀ m ∈ s.owed, buf.msg = some m.id →
      ∀ c, (c, m.id) ∈ s.counted → c = .droppedFull) :
    (s.nosIpcSendEnqueueEx n udsPath buf env).2.Accountable := by
  have hp := s.passage_nosIpcSendEnqueueEx n udsPath buf env
  refine h.frame ?_ hp (fun _ _ _ _ _ _ _ hl => hl.elim) ?_ ?_
  · exact s.frame_nosIpcSendEnqueueEx n udsPath buf env
  · rintro p b - ⟨-, hb | rfl⟩
    · intro id hid
      rw [hb] at hid
      cases hid
    · exact hbuf.mono hp.next_le
  · rintro c b ⟨rfl, rfl⟩
    exact ⟨hbuf.mono hp.next_le, fun c' b' hc' => hc'.1, hcounts⟩

omit [DecidableEq K] in
theorem sendShm (h : s.Accountable) (hidle : s.call n th = .idle) {offset : ℕ}
    (hoffset : offset ≠ 0) (udsPath : String) (hbuf : ∃ i, buf.msg = some (.shm i)) :
    ((s.setQueue (!n) ((s.queue (!n)).setProducer th (.loadTail offset))).setCall n th
      (.enqueue udsPath buf)).Accountable := by
  have hbufs : (s.setQueue (!n) ((s.queue (!n)).setProducer th (.loadTail offset))).bufs = s.bufs :=
    bufs_setQueue_of_returned rfl
  refine h.quiet hbufs rfl rfl rfl rfl rfl fun n' => ?_
  by_cases hn : n' = n
  · subst hn
    simpa [setQueue, setCall] using (h.mail n').start hidle hoffset hbuf
  · have hn' : (!n') ≠ !n := by simpa using hn
    simpa [setQueue, setCall, hn] using h.mail n'

theorem send (h : s.Accountable) (hidle : s.call n th = .idle) (bytes : Bytes)
    (env : SendEnv K) : (s.send n th bytes env).Accountable := by
  have hnext := h.next_succ
  have hnew := h.not_counted env
  unfold NodePair.send
  set u : NodePair T K C := { s with next := s.next + 1 }
  set buf := s.newBuf bytes env
  rcases u.nosServiceMsgSend_cases n th buf env with he | ⟨entry, hentry, hlocal, he⟩ |
    ⟨haway, ⟨udsPath, hoffset, he⟩ | ⟨udsPath, offset, hoffset, hne, he⟩⟩
  · simp only [he]
    exact hnext
  · simp only [he]
    have hacc := hnext.localSend n buf entry.localThread
    have hp : Passage u _ Stays (Queued n buf) fun _ _ => False :=
      u.passage_nosTransportLocalSend n buf entry.localThread
    split <;> rename_i hok
    · refine hacc.accept _ buf (fun id hid => .inl ?_) ?_
      · obtain ⟨th', hmem⟩ := mem_bufs_of_nosTransportLocalSend (Option.some.inj hok)
        exact ⟨.thread n th', (receiver_of_local hentry hlocal).symm, buf, hmem, hid, rfl⟩
      · rintro id ⟨⟩ c c' hc -
        rcases hp.counts c _ hc with hc | ⟨b, hb, -⟩
        · exact absurd hc (hnew c)
        · exact hb.elim
    · exact hacc
  · simp only [he]
    have hpooled : buf.Pooled u.next := by
      rintro id ⟨⟩
      exact ⟨s.next, Nat.lt_succ_self _, by simp [SendEnv.msgId, hoffset]⟩
    have hcounts : ∀ m ∈ u.owed, buf.msg = some m.id → ∀ c, (c, m.id) ∈ u.counted →
        c = .droppedFull := by
      intro m _ hid c hc
      rw [← Option.some.inj hid] at hc
      exact absurd hc (hnew c)
    have hacc := hnext.enqueueEx n udsPath env hpooled hcounts
    have hp := u.passage_nosIpcSendEnqueueEx n udsPath buf env
    split <;> rename_i hok
    · refine hacc.accept _ buf (fun id hid => .inl ?_) ?_
      · obtain ⟨k, hmem⟩ := mem_bufs_of_nosIpcSendEnqueueEx (Option.some.inj hok)
        exact ⟨.ring n k, (receiver_of_routesAway haway).symm, buf, hmem, hid, rfl⟩
      · have hdropped : ∀ c, (c, env.msgId s.next) ∈
            (u.nosIpcSendEnqueueEx n udsPath buf env).2.counted → c = .droppedFull := by
          intro c hc
          rcases hp.counts c _ hc with hc | ⟨b, hb, -⟩
          · exact absurd hc (hnew c)
          · exact hb.1
        rintro id ⟨⟩ c c' hc hc'
        rw [hdropped c hc, hdropped c' hc']
    · exact hacc
  · simp only [he]
    exact hnext.sendShm hidle hne udsPath ⟨s.next, by simp [buf, newBuf, SendEnv.msgId, hoffset]⟩

end Sends

end Accountable

end NodePair

end GeminiNOS

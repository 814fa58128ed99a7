import GeminiNOS.Ipc.ReceivedOnly
import GeminiNOS.Messaging.Accounting

/-! # No silent loss

Where a message that a send has accepted can be lost without a trace: a handler that
ignores the status of its own send, a link that is closed with messages unread on it, a
header that the handler takes for something else, a provider without an `on_msg`, and a
claim that finds no room. Without these, every message is delivered, on its way, or
counted once.
-/

namespace GeminiNOS

open Foundations Run

namespace NodePair

variable {T K C : Type*}

def Owes (s : NodePair T K C) (buf : MsgBuf) : Prop := ∃ m ∈ s.owed, buf.Carries m

/-- No other counter has counted the message in the buffer, if it is owed. -/
def CountedOnlyBy (s : NodePair T K C) (c : IpcCounter) (buf : MsgBuf) : Prop :=
  ∀ m ∈ s.owed, buf.msg = some m.id → ∀ c', (c', m.id) ∈ s.counted → c' = c

/-- Nothing that is owed is unread on the socket of a descriptor. -/
def CanClose (s : NodePair T K C) (n : Bool) (fd : Fd) : Prop :=
  ∀ i ∈ s.fdTable n fd, ∀ buf ∈ s.inbox n i, ¬ s.Owes buf

def HasRoom (s : NodePair T K C) (n : Bool) (serviceId : ℕ) : Prop :=
  ∀ entry ∈ (s.registry n).findServiceEntry serviceId, ∀ th ∈ entry.localThread,
    ¬ (s.msgQueue n th).IsFull

/-- What the handler may find in the next datagram. If it gets no buffer for it, or less than the
header says, it counts it, and otherwise a message that is owed is to be for a thread with room. -/
def MayTake (s : NodePair T K C) (n : Bool) (env : TakeEnv K) (buf : MsgBuf) : Prop :=
  if ¬ env.pool.ServesHeader (headerOn env.stack buf.bytes) then
    s.CountedOnlyBy .bufferAllocFails buf
  else if buf.bytes.length < fullMsgLen (headerOn env.stack buf.bytes) then
    s.CountedOnlyBy .rxErrors buf
  else s.Owes buf → (parseHeader buf.bytes).msgCode ∉ [nosIpcMsgHello, nosIpcMsgShmEvent] ∧
    s.HasRoom n buf.dstService

/-- The conditions on the steps. A claim finds room. No end of a socket is closed while a message
that is owed is unread on it. A message that is owed and comes in is no control message, and the
thread of its service has room. Its provider has an `on_msg`. And no message that is owed is counted
by two counters. -/
def Accounts (hasOnMsg : C → Bool) (s : NodePair T K C) : PairAction T K C → Prop
  | .produce n th spurious => (s.queue (!n)).Room (.produce th spurious)
  | .txTurn n k outcome => outcome = .failed → ¬ (s.conn n k).tx.IsEmpty →
    s.CanClose n (s.conn n k).fd ∧ s.CountedOnlyBy .txErrors (s.conn n k).tx.first
  | .recv n fd _ env => ∀ i ∈ s.fdTable n fd,
    if DropsLink env.stack (s.rxSocket n i) then s.CanClose n fd
    else ∀ buf ∈ (s.inbox n i).head?, s.MayTake n env buf
  | .recvFails n fd _ => s.CanClose n fd
  | .drain n _ => ∀ x ∈ s.dequeued n, s.Owes x.2 → s.HasRoom n x.2.dstService
  | .messages n th => ¬ (s.msgQueue n th).IsEmpty → s.Owes (s.msgQueue n th).first →
    (s.callee hasOnMsg n (s.msgQueue n th).first.dstService).isSome
  | _ => True

/-- Nothing is under way: no send, no handler, and nothing in the queues of the threads. -/
structure Quiescent (s : NodePair T K C) : Prop where
  calls : ∀ n th, s.call n th = .idle
  draining : ∀ n, s.draining n = false ∧ (s.queue n).consumer = .idle
  threads : ∀ n th, (s.msgQueue n th).IsEmpty

/-- The message is in a ring or a socket on its way to its receiver, or its offset is in its slot of
the receive queue. -/
def InTransit (s : NodePair T K C) (m : AcceptedMsg) : Prop :=
  (∃ k, ∃ buf ∈ (s.conn (!m.receiver) k).tx.contents, buf.Carries m) ∨
  (∃ i, ∃ buf ∈ s.inbox m.receiver i, buf.Carries m) ∨
  ∃ k, ∃ buf, (s.queue m.receiver).returned.length ≤ k ∧
    (s.claimed m.receiver)[k]? = some buf ∧ buf.Carries m ∧
    (s.queue m.receiver).claims[k]? = some ((s.queue m.receiver).offsets
      (((s.queue m.receiver).head + (k - (s.queue m.receiver).returned.length)) % nosShmQueueSize))

/-- Every message that a send has accepted and whose service has stayed bound has been handed to its
provider, is on its way, or has been counted by exactly one counter. -/
def NoSilentLoss (s : NodePair T K C) : Prop :=
  ∀ m ∈ s.owed, m.id ∈ s.dispatched ∨ s.InTransit m ∨ ∃! c, (c, m.id) ∈ s.counted

section Steps

variable {s t : NodePair T K C} {mgmt : T} {hasOnMsg : C → Bool} {n : Bool} {th : T} {k : K}
  {i fd : ℕ} {buf : MsgBuf} {m : AcceptedMsg}

theorem Accountable.count (h : s.Accountable) {c : IpcCounter} (hbuf : buf.Pooled s.next)
    (hcounts : s.CountedOnlyBy c buf) : (s.count c buf).Accountable := by
  have hp : Passage s (s.count c buf) Stays Stays (Counts c buf) := s.passage_count c buf
  refine h.frame ⟨rfl, rfl, rfl, rfl, rfl⟩ hp (fun _ _ _ _ _ _ _ hl => hl.elim)
    (fun _ _ _ hc => hc.elim) ?_
  rintro c' b ⟨rfl, rfl⟩
  exact ⟨hbuf, fun c'' b'' hc => hc.1, hcounts⟩

theorem conn_closeFd (s : NodePair T K C) (n : Bool) (fd : Fd) :
    (s.closeFd n fd).conn = s.conn ∧ (s.closeFd n fd).next = s.next ∧
      (s.closeFd n fd).owed = s.owed ∧ (s.closeFd n fd).counted = s.counted := by
  unfold NodePair.closeFd
  split <;> exact ⟨rfl, rfl, rfl, rfl⟩

variable [DecidableEq T] [DecidableEq K]

theorem Accountable.closeFd (h : s.Accountable) {fd : Fd} (hclose : s.CanClose n fd) :
    (s.closeFd n fd).Accountable := by
  unfold NodePair.closeFd
  split
  · exact h
  · rename_i i hi
    have hp : Passage s (s.setInbox n i []) (fun p _ => p = .socket n i) Stays
        fun _ _ => False := by
      refine .of_moves ?_ rfl rfl rfl
      rw [bufs_setInbox]
      exact Moves.update (fun _ _ => .inr rfl) (fun _ hb => nomatch hb)
    have ht : (s.setInbox n i []).Accountable := by
      refine h.frame ⟨rfl, rfl, rfl, rfl, rfl⟩ hp ?_ (fun _ _ _ hc => hc.elim)
        fun _ _ hc => hc.elim
      rintro m hm p b - hb hcarries rfl
      exact absurd ⟨m, hm, hcarries⟩ (hclose i hi b hb)
    exact ht.quiet rfl rfl rfl rfl rfl rfl ht.mail

theorem Accountable.setConn (h : s.Accountable) {conn : NosIpcConn MsgBuf}
    (hconn : conn.tx = (s.conn n k).tx) : (s.setConn n k conn).Accountable := by
  refine h.quiet ?_ rfl rfl rfl rfl rfl h.mail
  rw [bufs_setConn, hconn]
  exact Function.update_eq_self ..

theorem Accountable.dropLink (h : s.Accountable) (hclose : s.CanClose n fd) (k : Option K) :
    (s.dropLink n fd k).Accountable := by
  cases k with
  | none => exact h.closeFd hclose
  | some k =>
    refine (h.closeFd hclose).setConn ?_
    rw [(s.conn_closeFd n fd).1]
    rfl

theorem Accountable.deliver (h : s.Accountable) {conn : NosIpcConn MsgBuf}
    (hconn : (s.conn n k).tx.contents = buf :: conn.tx.contents) :
    ((s.setConn n k conn).setInbox (!n) i (s.inbox (!n) i ++ [buf])).Accountable := by
  set t := (s.setConn n k conn).setInbox (!n) i (s.inbox (!n) i ++ [buf])
  have hbufs : t.bufs = Function.update (Function.update s.bufs (.ring n k) conn.tx.contents)
      (.socket (!n) i) (s.inbox (!n) i ++ [buf]) := by
    rw [bufs_setInbox, bufs_setConn]
  have hp : Passage s t (fun p b => p = .ring n k ∧ b = buf)
      (fun p b => p = .socket (!n) i ∧ b = buf) fun _ _ => False := by
    refine .of_moves ?_ rfl rfl rfl
    rw [hbufs]
    refine Moves.trans (Moves.tail (f := s.bufs) (i := .ring n k) hconn ⟨rfl, rfl⟩) ?_
    have hinbox : Function.update s.bufs (.ring n k) conn.tx.contents (.socket (!n) i) =
        s.inbox (!n) i := Function.update_of_ne (by simp) _ _
    rw [← hinbox]
    apply Moves.append
    intro b hb
    exact ⟨rfl, List.mem_singleton.mp hb⟩
  refine h.frame ⟨rfl, rfl, rfl, rfl, rfl⟩ hp ?_ ?_ fun _ _ hc => hc.elim
  · rintro m - p b hreceiver - hcarries ⟨rfl, rfl⟩
    refine .inl ⟨.socket (!n) i, hreceiver, b, ?_, hcarries⟩
    rw [hbufs, Function.update_self]
    exact List.mem_append_right _ (List.mem_singleton_self b)
  · rintro p b - ⟨rfl, rfl⟩
    refine h.links (.ring n k) trivial b ?_
    show b ∈ (s.conn n k).tx.contents
    rw [hconn]
    exact List.mem_cons_self

omit [DecidableEq T] [DecidableEq K] in
theorem tx_of_not_sent {conn : NosIpcConn MsgBuf} {outcome : SendOutcome}
    (h : (conn.processTxTurn outcome).sent = none) :
    (conn.processTxTurn outcome).conn.tx = conn.tx := by
  unfold NosIpcConn.processTxTurn at h ⊢
  split
  · exact NosIpcConn.tx_relieve
  · rw [if_neg ‹_›] at h
    cases outcome with
    | sent => cases h
    | again => rfl
    | failed => rfl

theorem Accountable.txTurn (h : s.Accountable) {outcome : SendOutcome}
    (hacc : s.Accounts hasOnMsg (.txTurn n k outcome)) (hs : s.txTurn n k outcome = some t) :
    t.Accountable := by
  have hcontents := (s.conn n k).contents_processTxTurn outcome
  simp only [NodePair.txTurn] at hs
  cases hsent : ((s.conn n k).processTxTurn outcome).sent with
  | some buf =>
    cases hfd : s.fdTable n (s.conn n k).fd with
    | none => simp [hsent, hfd] at hs
    | some i =>
      simp only [hsent, hfd] at hs
      split at hs
      · cases hs
      · obtain rfl := Option.some.inj hs
        rw [hsent] at hcontents
        exact h.deliver hcontents
  | none =>
    have htx := tx_of_not_sent hsent
    simp only [hsent] at hs
    split at hs <;> rename_i hends <;> obtain rfl := Option.some.inj hs
    · exact h.setConn htx
    · obtain ⟨hempty, hfailed⟩ := not_or.mp hends
      obtain ⟨hclose, hcounts⟩ := hacc (not_not.mp hfailed) hempty
      obtain ⟨hconn, hnext, howed, hcounted⟩ := s.conn_closeFd n (s.conn n k).fd
      refine ((h.closeFd hclose).setConn (by rw [htx, hconn])).count ?_ ?_
      · have hlink := h.links (.ring n k) trivial (s.conn n k).tx.first
        show MsgBuf.Pooled (s.closeFd n (s.conn n k).fd).next _
        rw [hnext]
        apply hlink
        show _ ∈ (s.conn n k).tx.contents
        rw [(s.conn n k).tx.contents_advance hempty]
        exact List.mem_cons_self
      · intro m hm hid c hc
        refine hcounts m ?_ hid c ?_
        · rw [← howed]
          exact hm
        · rw [← hcounted]
          exact hc

/-- A local send is the whole of `nos_service_msg_send` for a service that has a local entry. -/
theorem nosServiceMsgSend_of_local {entry : ServiceSlot C T} (env : SendEnv K)
    (hentry : entry ∈ (s.registry n).findServiceEntry buf.dstService)
    (hlocal : entry.isRemote = false) :
    (s.nosServiceMsgSend n th buf env).2 = (s.nosTransportLocalSend n buf entry.localThread).2 := by
  unfold nosServiceMsgSend
  rw [Option.mem_def.mp hentry]
  simp [hlocal]

theorem passage_of_not_routesAway (th : T) (env : SendEnv K)
    (haway : ¬ (s.registry n).RoutesAway buf.dstService) :
    Frame s (s.nosServiceMsgSend n th buf env).2 ∧
      Passage s (s.nosServiceMsgSend n th buf env).2 Stays (Queued n buf) fun _ _ => False := by
  cases hentry : (s.registry n).findServiceEntry buf.dstService with
  | none =>
    unfold nosServiceMsgSend
    rw [hentry]
    exact ⟨.refl s, .of_eq rfl rfl rfl rfl⟩
  | some entry =>
    have hlocal : entry.isRemote = false := by
      cases hremote : entry.isRemote with
      | false => rfl
      | true => exact absurd ⟨entry, hentry, hremote⟩ haway
    rw [nosServiceMsgSend_of_local env hentry hlocal]
    exact ⟨s.frame_nosTransportLocalSend n buf entry.localThread,
      s.passage_nosTransportLocalSend n buf entry.localThread⟩

theorem held_of_binds (th : T) (env : SendEnv K) (hbinds : (s.registry n).Binds buf.dstService)
    (hroom : s.HasRoom n buf.dstService) :
    ∃ th', buf ∈ (s.nosServiceMsgSend n th buf env).2.bufs (.thread n th') := by
  obtain ⟨entry, hentry, hlocal, -, hthread⟩ := hbinds
  obtain ⟨th', hth'⟩ := Option.isSome_iff_exists.mp hthread
  rw [nosServiceMsgSend_of_local env hentry hlocal]
  apply mem_bufs_of_nosTransportLocalSend
  rw [hth']
  exact congrArg Prod.fst (if_neg (hroom entry hentry th' hth'))

/-- What takes a buffer from its place and passes it on keeps the account, if the thread of a
message that is owed has room. -/
theorem Accountable.passOn (h : s.Accountable) {p₀ : Place T K} {b₀ : MsgBuf} (env : SendEnv K)
    (hp : Passage s t (fun p b => p = p₀ ∧ b = b₀) Stays fun _ _ => False)
    (hregistry : t.registry = s.registry) (howed : t.owed = s.owed)
    (hqueue : t.msgQueue = s.msgQueue)
    (hmail : ∀ n, MailSound (t.queue (!n)) (t.claimed (!n)) (t.call n))
    (hidle : t.call n mgmt = .idle) (hp₀ : p₀.receiver = n) (hmsg : buf.msg = b₀.msg)
    (hdst : buf.dstService = b₀.dstService) (hroom : s.Owes b₀ → s.HasRoom n b₀.dstService) :
    (NodePair.passOn mgmt t n buf env).Accountable := by
  have hbinds : ∀ m ∈ s.owed, p₀.receiver = m.receiver → b₀.Carries m →
      (t.registry n).Binds buf.dstService := by
    intro m hm hreceiver hcarries
    rw [hregistry, hdst, hcarries.2, ← hp₀, hreceiver]
    exact h.bound m hm
  unfold NodePair.passOn
  split <;> rename_i haway
  · refine Accountable.send ?_ hidle buf.bytes env
    refine h.passage hp hregistry howed hmail ?_ (fun _ _ _ hc => hc.elim) fun _ _ hc => hc.elim
    rintro m hm p b hreceiver - hcarries ⟨rfl, rfl⟩
    obtain ⟨entry, hentry, hlocal, -⟩ := hbinds m hm hreceiver hcarries
    obtain ⟨entry', hentry', hremote⟩ := haway
    obtain rfl := Option.mem_unique hentry hentry'
    rw [hlocal] at hremote
    cases hremote
  · obtain ⟨hf, hlocal⟩ := passage_of_not_routesAway mgmt env haway
    have hpu := (hp.mono (fun _ _ hl => hl) (fun _ _ hc => hc.elim) fun _ _ hc => hc).trans
      (hlocal.mono (fun _ _ hl => hl.elim) (fun _ _ hc => hc) fun _ _ hc => hc)
    refine h.passage hpu (hf.registry.trans hregistry) (hf.owed.trans howed) (fun n' => ?_) ?_ ?_
      fun _ _ hc => hc.elim
    · rw [hf.queue, hf.claimed, hf.call]
      exact hmail n'
    · rintro m hm p b hreceiver - hcarries ⟨rfl, rfl⟩
      have hroom' : t.HasRoom n buf.dstService := by
        have := hroom ⟨m, hm, hcarries⟩
        unfold HasRoom at this ⊢
        rwa [hregistry, hqueue, hdst]
      obtain ⟨th', hmem⟩ := held_of_binds mgmt env (hbinds m hm hreceiver hcarries) hroom'
      refine .inl ⟨.thread n th', hp₀.symm.trans hreceiver, buf, hmem, ?_, ?_⟩
      · rw [hmsg, hcarries.1]
      · rw [hdst, hcarries.2]
    · rintro p b hlink ⟨⟨th', rfl⟩, -⟩
      exact hlink.elim

theorem passage_pop {rest : List MsgBuf} (hinbox : s.inbox n i = buf :: rest) :
    Passage s (s.setInbox n i rest) (fun p b => p = .socket n i ∧ b = buf) Stays
      fun _ _ => False := by
  refine .of_moves ?_ rfl rfl rfl
  rw [bufs_setInbox]
  exact Moves.tail (f := s.bufs) (i := .socket n i) hinbox ⟨rfl, rfl⟩

theorem Accountable.pop (h : s.Accountable) {rest : List MsgBuf}
    (hinbox : s.inbox n i = buf :: rest) (howes : ¬ s.Owes buf) :
    (s.setInbox n i rest).Accountable := by
  refine h.frame ⟨rfl, rfl, rfl, rfl, rfl⟩ (passage_pop hinbox) ?_ (fun _ _ _ hc => hc.elim)
    fun _ _ hc => hc.elim
  rintro m hm p b - - hcarries ⟨rfl, rfl⟩
  exact absurd ⟨m, hm, hcarries⟩ howes

theorem Accountable.popCount (h : s.Accountable) {rest : List MsgBuf} {c : IpcCounter}
    (hinbox : s.inbox n i = buf :: rest) (hcounts : s.CountedOnlyBy c buf) :
    ((s.setInbox n i rest).count c buf).Accountable := by
  have hpop : Passage s (s.setInbox n i rest) (fun p b => p = .socket n i ∧ b = buf) Stays
      (Counts c buf) :=
    (passage_pop hinbox).mono (fun _ _ hl => hl) (fun _ _ hc => hc) fun _ _ hc => hc.elim
  refine h.frame ⟨rfl, rfl, rfl, rfl, rfl⟩ (hpop.trans (passage_count _ c buf)) ?_
    (fun _ _ _ hc => hc.elim) ?_
  · rintro m - p b - - hcarries ⟨rfl, rfl⟩
    exact .inr (.inr ⟨c, mem_counted_count hcarries.1⟩)
  · rintro c' b ⟨rfl, rfl⟩
    refine ⟨h.links (.socket n i) trivial b ?_, fun c'' b'' hc => hc.1, hcounts⟩
    show b ∈ s.inbox n i
    rw [hinbox]
    exact List.mem_cons_self

omit [DecidableEq T] [DecidableEq K] in
theorem outcome_of_empty {pool : NosBufferPool} {stack : Bytes} {sock : RxSocket}
    (hqueue : sock.queue = []) (hkeep : ¬ DropsLink stack sock) :
    (nosIpcRecvHandler pool stack sock).1 = .again := by
  have hpeek : peek stack sock = if sock.closed then .gone else .again := by
    unfold peek
    rw [hqueue]
  cases hclosed : sock.closed with
  | true =>
    rw [hclosed] at hpeek
    unfold DropsLink at hkeep
    rw [hpeek] at hkeep
    exact absurd trivial hkeep
  | false =>
    rw [hclosed] at hpeek
    simp [nosIpcRecvHandler, recvStart, hpeek]

omit [DecidableEq T] [DecidableEq K] in
/-- A message has its header as long as that is not cut. -/
theorem parseHeader_takeOf {bytes : Bytes} {count : ℕ} (hcount : sizeofNosServiceMsg ≤ count)
    (hlen : count ≤ bytes.length) : parseHeader (bytes.take count) = parseHeader bytes := by
  have hcut : sizeofNosServiceMsg ≤ (bytes.take count).length := by
    rw [List.length_take]
    omega
  have htake : parseHeader (bytes.take sizeofNosServiceMsg ++ []) = parseHeader bytes :=
    parseHeader_take (hcount.trans hlen)
  have hcutTake : parseHeader ((bytes.take count).take sizeofNosServiceMsg ++ []) =
      parseHeader (bytes.take count) := parseHeader_take hcut
  rw [← hcutTake, List.take_take, Nat.min_eq_left hcount, htake]

theorem Accountable.take (h : s.Accountable) (hidle : s.call n mgmt = .idle) {env : TakeEnv K}
    {k : Option K} {rest : List MsgBuf} (hinbox : s.inbox n i = buf :: rest)
    (hkeep : ¬ DropsLink env.stack (s.rxSocket n i)) (hguard : s.MayTake n env buf) :
    (s.take mgmt n i fd k env (buf :: rest)
      (nosIpcRecvHandler env.pool env.stack (s.rxSocket n i)).1).Accountable := by
  have hqueue : (s.rxSocket n i).queue = buf.bytes :: rest.map MsgBuf.bytes := by
    simp [rxSocket, hinbox]
  have hne : buf.bytes ≠ [] := by
    intro hnil
    apply hkeep
    unfold DropsLink peek
    rw [hqueue, hnil]
    trivial
  have hcases : nosIpcRecvHandler env.pool env.stack (s.rxSocket n i) = _ :=
    nosIpcRecvHandler_cons hqueue hne
  have hmagic : (headerOn env.stack buf.bytes).magic = nosIpcMagic := by
    by_contra hmagic
    rw [if_pos hmagic] at hcases
    exact hkeep (outcome_eq_dropLink_iff.mp (congrArg Prod.fst hcases))
  rw [hcases, if_neg (not_not.mpr hmagic)]
  unfold MayTake at hguard
  by_cases hserves : env.pool.ServesHeader (headerOn env.stack buf.bytes)
  · rw [if_neg (not_not.mpr hserves)] at hguard
    rw [if_pos hserves]
    dsimp only [dispatch]
    by_cases hshort : buf.bytes.length < fullMsgLen (headerOn env.stack buf.bytes)
    · rw [if_pos hshort] at hguard ⊢
      exact h.popCount hinbox hguard
    · rw [if_neg hshort] at hguard ⊢
      by_cases hhello : (parseHeader buf.bytes).msgCode = nosIpcMsgHello
      · rw [if_pos hhello]
        have hpop := h.pop hinbox fun howes => (hguard howes).1 (by simp [hhello])
        cases k with
        | some k => exact hpop
        | none =>
          cases hpromoted : env.promoted with
          | none =>
            simp only [NodePair.take, hpromoted]
            exact hpop
          | some k =>
            simp only [NodePair.take, hpromoted]
            exact hpop.setConn rfl
      · rw [if_neg hhello]
        by_cases hshm : (parseHeader buf.bytes).msgCode = nosIpcMsgShmEvent
        · rw [if_pos hshm]
          have hpop := h.pop hinbox fun howes => (hguard howes).1 (by simp [hshm])
          exact hpop.quiet rfl rfl rfl rfl rfl rfl hpop.mail
        · rw [if_neg hshm]
          have hlen := sizeofNosServiceMsg_le_fullMsgLen
            (buf.bytes.take sizeofNosServiceMsg ++ env.stack.drop buf.bytes.length)
          exact h.passOn _ (passage_pop hinbox) rfl rfl rfl h.mail hidle rfl rfl
            (congrArg NosServiceMsg.dstService (parseHeader_takeOf hlen (Nat.le_of_not_lt hshort)))
            fun howes => (hguard howes).2
  · rw [if_pos hserves] at hguard
    rw [if_neg hserves]
    exact h.popCount hinbox hguard

theorem Accountable.recv (h : s.Accountable) (hidle : s.call n mgmt = .idle) {env : TakeEnv K}
    {k : Option K} (hacc : s.Accounts hasOnMsg (.recv n fd k env)) :
    (s.recv mgmt n fd k env).Accountable := by
  unfold NodePair.recv
  cases hfd : s.fdTable n fd with
  | none =>
    refine h.dropLink ?_ k
    rintro i hi
    rw [hfd] at hi
    cases hi
  | some i =>
    have hguard := hacc i hfd
    dsimp only
    split at hguard <;> rename_i hdrop
    · rw [outcome_eq_dropLink_iff.mpr hdrop]
      have htake : s.take mgmt n i fd k env (s.inbox n i) .dropLink = s.dropLink n fd k := by
        cases s.inbox n i <;> rfl
      rw [htake]
      exact h.dropLink hguard k
    · cases hinbox : s.inbox n i with
      | nil =>
        have hagain : (nosIpcRecvHandler env.pool env.stack (s.rxSocket n i)).1 = .again :=
          outcome_of_empty (by simp [rxSocket, hinbox]) hdrop
        rw [hagain]
        exact h
      | cons buf rest =>
        rw [hinbox] at hguard
        exact h.take hidle hinbox hdrop (hguard buf rfl)

omit [DecidableEq T] [DecidableEq K] in
theorem Accountable.mail_of (h : s.Accountable) {queue : NosShmMpscQueue T}
    (hqueue : t.queue = Function.update s.queue (!n) queue)
    (hclaimed : ∀ n', n' ≠ n → t.claimed (!n') = s.claimed (!n'))
    (hcall : ∀ n', n' ≠ n → t.call n' = s.call n')
    (hmail : MailSound queue (t.claimed (!n)) (t.call n)) (n' : Bool) :
    MailSound (t.queue (!n')) (t.claimed (!n')) (t.call n') := by
  by_cases hn : n' = n
  · subst hn
    rw [hqueue, Function.update_self]
    exact hmail
  · rw [hqueue, Function.update_of_ne (by simpa using hn), hclaimed n' hn, hcall n' hn]
    exact h.mail n'

omit [DecidableEq T] [DecidableEq K] in
theorem Accountable.mem_bufs_of_store (h : s.Accountable) {udsPath : String}
    {offset tail ticket : ℕ} (hcall : s.call n th = .enqueue udsPath buf)
    (hstore : (s.queue (!n)).producer th = .store offset tail ticket) :
    buf ∈ s.bufs (.shm (!n) : Place T K) := by
  have hshm := (h.mail n).calls th
  rw [hcall] at hshm
  have hget := hshm.2 offset tail ticket hstore
  have hle := ((h.mail n).inv.claimed th offset tail ticket hstore).2.2.1
  show buf ∈ (s.claimed (!n)).drop (s.queue (!n)).returned.length
  rw [List.mem_iff_getElem?]
  refine ⟨ticket - (s.queue (!n)).returned.length, ?_⟩
  rw [List.getElem?_drop, Nat.add_sub_cancel' hle, hget]

omit [DecidableEq K] in
theorem produced_of_unclaimed (s : NodePair T K C) {udsPath : String} {pc : EnqueuePc}
    (hold : ((s.queue (!n)).producer th).Unclaimed) (hnew : pc.Unclaimed) :
    s.produced n th udsPath buf ((s.queue (!n)).setProducer th pc) =
      if pc = .idle then (s.setQueue (!n) ((s.queue (!n)).setProducer th pc)).setCall n th .idle
      else s.setQueue (!n) ((s.queue (!n)).setProducer th pc) := by
  unfold NodePair.produced
  rw [NosShmMpscQueue.producer_setProducer, if_pos rfl]
  split
  · rw [‹(s.queue (!n)).producer th = _›] at hold
    exact hold.elim
  · exact hnew.elim
  · rfl
  · rw [if_neg]
    assumption

omit [DecidableEq K] in
theorem produced_of_claim (s : NodePair T K C) {udsPath : String} {queue : NosShmMpscQueue T}
    {offset tail tail' ticket : ℕ} (hcas : (s.queue (!n)).producer th = .cas offset tail)
    (hstore : queue.producer th = .store offset tail' ticket) :
    s.produced n th udsPath buf queue = { s.setQueue (!n) queue with
      claimed := Function.update s.claimed (!n) (s.claimed (!n) ++ [buf]) } := by
  unfold NodePair.produced
  rw [hcas, hstore]

omit [DecidableEq K] in
theorem produced_of_store (s : NodePair T K C) {udsPath : String} {queue : NosShmMpscQueue T}
    {offset tail ticket : ℕ} (hstore : (s.queue (!n)).producer th = .store offset tail ticket) :
    s.produced n th udsPath buf queue =
      ((s.setQueue (!n) queue).setCall n th (.allocEvent udsPath)).accept (!n) buf := by
  unfold NodePair.produced
  rw [hstore]

theorem Accountable.claim (h : s.Accountable) {queue : NosShmMpscQueue T}
    (hreturned : queue.returned = (s.queue (!n)).returned)
    (hmail : MailSound queue (s.claimed (!n) ++ [buf]) (s.call n)) :
    ({ s.setQueue (!n) queue with
      claimed := Function.update s.claimed (!n) (s.claimed (!n) ++ [buf]) } :
      NodePair T K C).Accountable := by
  set t : NodePair T K C := { s.setQueue (!n) queue with
    claimed := Function.update s.claimed (!n) (s.claimed (!n) ++ [buf]) }
  have hp : Passage s t Stays (fun p _ => p = .shm (!n)) fun _ _ => False := by
    refine .of_moves ?_ rfl rfl rfl
    rw [show t.bufs = _ from s.bufs_setQueue (!n) queue (s.claimed (!n) ++ [buf]), hreturned]
    refine Moves.update (fun b hb => .inl ?_) fun _ _ => .inr rfl
    have hb' : b ∈ (s.claimed (!n)).drop (s.queue (!n)).returned.length := hb
    rw [List.drop_append]
    exact List.mem_append_left _ hb'
  refine h.passage hp rfl rfl (h.mail_of rfl (fun n' hn => ?_) (fun _ _ => rfl) ?_)
    (fun _ _ _ _ _ _ _ hl => hl.elim) ?_ fun _ _ hc => hc.elim
  · exact Function.update_of_ne (by simpa using hn) _ _
  · show MailSound queue (Function.update s.claimed (!n) _ (!n)) (s.call n)
    rw [Function.update_self]
    exact hmail
  · rintro p b hlink rfl
    exact hlink.elim

omit [DecidableEq K] in
theorem Accountable.store (h : s.Accountable) {queue : NosShmMpscQueue T} {udsPath : String}
    {offset tail ticket : ℕ} (hcall : s.call n th = .enqueue udsPath buf)
    (hstore : (s.queue (!n)).producer th = .store offset tail ticket)
    (hreturned : queue.returned = (s.queue (!n)).returned)
    (hmail : MailSound queue (s.claimed (!n))
      (Function.update (s.call n) th (.allocEvent udsPath))) :
    (((s.setQueue (!n) queue).setCall n th (.allocEvent udsPath)).accept (!n) buf).Accountable := by
  have hbufs : ((s.setQueue (!n) queue).setCall n th (.allocEvent udsPath)).bufs = s.bufs :=
    bufs_setQueue_of_returned hreturned
  have ht : ((s.setQueue (!n) queue).setCall n th (.allocEvent udsPath)).Accountable := by
    refine h.quiet hbufs rfl rfl rfl rfl rfl (h.mail_of rfl (fun _ _ => rfl)
      (fun n' hn => Function.update_of_ne hn _ _) ?_)
    show MailSound queue _ (Function.update s.call n _ n)
    rw [Function.update_self]
    exact hmail
  have hshm := (h.mail n).calls th
  rw [hcall] at hshm
  obtain ⟨⟨i, hid⟩, -⟩ := hshm
  refine ht.accept (!n) buf (fun id hid' => .inl ?_) ?_
  · refine ⟨.shm (!n), rfl, buf, ?_, hid', rfl⟩
    rw [hbufs]
    exact h.mem_bufs_of_store hcall hstore
  · rintro id hid' c - hc
    obtain rfl := Option.some.inj (hid'.symm.trans hid)
    obtain ⟨j, -, he⟩ := h.counted c _ hc
    cases he

theorem Accountable.produced (h : s.Accountable) {udsPath : String} {spurious : Bool}
    {queue : NosShmMpscQueue T} (hcall : s.call n th = .enqueue udsPath buf)
    (hroom : (s.queue (!n)).Room (.produce th spurious))
    (hs : (s.queue (!n)).produce th spurious = some queue) :
    (s.produced n th udsPath buf queue).Accountable := by
  have hmail := h.mail n
  have hinv := hmail.inv.produce hroom hs
  obtain ⟨hreturned, ⟨pc, hold, hnew, rfl⟩ | ⟨offset, hcas, hclaims, hproducer⟩ |
    ⟨offset, tail, ticket, hstore, hclaims, hproducer⟩⟩ := NosShmMpscQueue.produce_claims hs
  · rw [s.produced_of_unclaimed hold hnew]
    have hbufs : (s.setQueue (!n) ((s.queue (!n)).setProducer th pc)).bufs = s.bufs :=
      bufs_setQueue_of_returned rfl
    split
    · refine h.quiet hbufs rfl rfl rfl rfl rfl (h.mail_of rfl (fun _ _ => rfl)
        (fun n' hn => Function.update_of_ne hn _ _) ?_)
      rw [‹pc = .idle›] at hinv ⊢
      show MailSound _ _ (Function.update s.call n _ n)
      rw [Function.update_self]
      exact hmail.move hinv rfl rfl rfl
    · refine h.quiet hbufs rfl rfl rfl rfl rfl (h.mail_of rfl (fun _ _ => rfl)
        (fun _ _ => rfl) (hmail.setProducer hinv ?_))
      have hshm := hmail.calls th
      rw [hcall] at hshm ⊢
      refine ⟨hshm.1, fun offset tail ticket hp => ?_⟩
      rw [hp] at hnew
      exact hnew.elim
  · rw [s.produced_of_claim hcas (by rw [hproducer, Function.update_self])]
    exact h.claim hreturned (hmail.claim hcall hinv hclaims hproducer)
  · rw [s.produced_of_store hstore]
    exact h.store hcall hstore hreturned (hmail.move hinv hclaims hproducer rfl)

theorem drainTurn_cases {queue queue' : NosShmMpscQueue T} (h : queue.Inv)
    (hs : Doorbell.drainTurn queue = some queue') :
    queue'.Inv ∧ queue'.claims = queue.claims ∧ queue'.producer = queue.producer ∧
      ((∀ head offset, queue.consumer ≠ .advance head offset) ∧
          queue'.returned = queue.returned ∨
        ∃ head offset, queue.consumer = .advance head offset ∧
          queue'.returned = queue.returned ++ [offset]) := by
  unfold Doorbell.drainTurn at hs
  split at hs <;> rename_i hidle
  · have hinv : queue'.Inv := h.step (show queue.Room .dequeue from trivial) hs
    simp only [NosShmMpscQueue.step, hidle, ne_eq, not_true_eq_false, if_false] at hs
    obtain rfl := Option.some.inj hs
    exact ⟨hinv, rfl, rfl, .inl ⟨by simp [hidle], rfl⟩⟩
  · exact ⟨h.consume hs, NosShmMpscQueue.consume_returned hs⟩

theorem passage_return {queue : NosShmMpscQueue T} {offset : ℕ}
    (hreturned : queue.returned = (s.queue n).returned ++ [offset])
    (hget : (s.claimed n)[(s.queue n).returned.length]? = some buf) :
    Passage s (s.setQueue n queue) (fun p b => p = .shm n ∧ b = buf) Stays fun _ _ => False := by
  refine .of_moves ?_ rfl rfl rfl
  have hbufs : (s.setQueue n queue).bufs = Function.update s.bufs (.shm n)
      ((s.claimed n).drop queue.returned.length) := by
    rw [← s.bufs_setQueue n queue (s.claimed n), Function.update_eq_self]
    rfl
  rw [hbufs, hreturned, List.length_append, List.length_singleton]
  refine Moves.tail (f := s.bufs) (i := .shm n) ?_ ⟨rfl, rfl⟩
  obtain ⟨hlt, rfl⟩ := List.getElem?_eq_some_iff.mp hget
  exact List.drop_eq_getElem_cons hlt

theorem Accountable.drain (h : s.Accountable) (hidle : s.call n mgmt = .idle)
    {queue : NosShmMpscQueue T} {env : SendEnv K}
    (hacc : s.Accounts hasOnMsg (.drain n env))
    (hs : Doorbell.drainTurn (s.queue n) = some queue) :
    (s.drain mgmt n env queue).Accountable := by
  have hold : MailSound (s.queue n) (s.claimed n) (s.call (!n)) := by
    simpa using h.mail (!n)
  obtain ⟨hinv, hclaims, hproducer, hcases⟩ := drainTurn_cases hold.inv hs
  have hmail : ∀ n', MailSound (Function.update s.queue n queue (!n')) (s.claimed (!n'))
      (s.call n') := by
    intro n'
    by_cases hn : (!n') = n
    · rw [hn, Function.update_self, show n' = !n by simp [← hn]]
      exact hold.consumer hinv hclaims hproducer
    · rw [Function.update_of_ne hn]
      exact h.mail n'
  unfold NodePair.drain
  rcases hcases with ⟨hstays, hreturned⟩ | ⟨head, offset, hconsumer, hreturned⟩
  · have hnone : s.dequeued n = none := by
      unfold dequeued
      split
      · exact absurd ‹_› (hstays _ _)
      · rfl
    rw [hnone]
    exact h.quiet (bufs_setQueue_of_returned hreturned) rfl rfl rfl rfl rfl hmail
  · have hlt : (s.queue n).returned.length < (s.claimed n).length := by
      have hsound := hold.inv.consumer
      simp only [NosShmMpscQueue.ConsumerSound, hconsumer] at hsound
      rw [hold.length]
      exact (List.getElem?_eq_some_iff.mp hsound.2.2.1).1
    have hget := List.getElem?_eq_getElem hlt
    have hsome : s.dequeued n = some (offset, (s.claimed n)[(s.queue n).returned.length]) := by
      unfold dequeued
      rw [hconsumer]
      simp [hget]
    rw [hsome]
    have hroom := hacc _ hsome
    have hp := passage_return hreturned hget
    exact h.passOn _ (hp.trans (.of_eq rfl rfl rfl rfl)) rfl rfl rfl hmail hidle rfl rfl rfl hroom

theorem Accountable.processThreadMessage (h : s.Accountable)
    (hacc : s.Accounts hasOnMsg (.messages n th)) :
    (s.processThreadMessage hasOnMsg n th).Accountable := by
  unfold NodePair.processThreadMessage
  split <;> rename_i hempty
  · exact h
  · have hcallee := hacc hempty
    set buf := (s.msgQueue n th).first
    have hp : Passage s (s.setMsgQueue n th (s.msgQueue n th).advance)
        (fun p b => p = .thread n th ∧ b = buf) Stays fun _ _ => False := by
      refine .of_moves ?_ rfl rfl rfl
      rw [bufs_setMsgQueue]
      exact Moves.tail (f := s.bufs) (i := .thread n th)
        ((s.msgQueue n th).contents_advance hempty) ⟨rfl, rfl⟩
    dsimp only
    split <;> rename_i hfound
    · refine h.frame ⟨rfl, rfl, rfl, rfl, rfl⟩ hp ?_ (fun _ _ _ hc => hc.elim)
        fun _ _ hc => hc.elim
      rintro m hm p b - - hcarries ⟨rfl, rfl⟩
      have := hcallee ⟨m, hm, hcarries⟩
      rw [hfound] at this
      cases this
    · set t : NodePair T K C := { s.setMsgQueue n th (s.msgQueue n th).advance with
        dispatched := buf.msg.toList ++ s.dispatched }
      have hpt : Passage s t (fun p b => p = .thread n th ∧ b = buf) Stays fun _ _ => False :=
        { moves := hp.moves
          next_le := le_rfl
          dispatched := fun _ hid => List.mem_append_right _ hid
          counted := fun _ hx => hx
          counts := fun _ _ hx => .inl hx }
      refine h.frame ⟨rfl, rfl, rfl, rfl, rfl⟩ hpt ?_ (fun _ _ _ hc => hc.elim)
        fun _ _ hc => hc.elim
      rintro m - p b - - hcarries ⟨rfl, rfl⟩
      refine .inr (.inl (List.mem_append_left _ ?_))
      rw [hcarries.1]
      exact List.mem_singleton_self m.id

omit [DecidableEq T] [DecidableEq K] in
theorem Accountable.setRegistry (h : s.Accountable) (n : Bool) (reg : ServiceRegistry C T) :
    (s.setRegistry n reg).Accountable where
  mail := h.mail
  links := h.links
  counted := h.counted
  bound m hm := by
    obtain ⟨hm, hbinds⟩ := List.mem_filter.mp hm
    show (Function.update s.registry n reg m.receiver).Binds m.service
    by_cases hn : m.receiver = n
    · rw [hn, Function.update_self]
      simpa [hn] using hbinds
    · rw [Function.update_of_ne hn]
      exact h.bound m hm
  settled m hm := h.settled m (List.mem_filter.mp hm).1
  once m hm := h.once m (List.mem_filter.mp hm).1

omit [DecidableEq K] in
theorem Accountable.setCall (h : s.Accountable) {pc : MailPc}
    (hidle : (s.queue (!n)).producer th = .idle)
    (hpc : CallSound (s.claimed (!n)) .idle pc) : (s.setCall n th pc).Accountable := by
  refine h.quiet rfl rfl rfl rfl rfl rfl fun n' => ?_
  show MailSound (s.queue (!n')) (s.claimed (!n')) (Function.update s.call n _ n')
  by_cases hn : n' = n
  · subst hn
    rw [Function.update_self]
    exact (h.mail n').setCall hidle hpc
  · rw [Function.update_of_ne hn]
    exact h.mail n'

theorem Accountable.step (h : s.Accountable) {a : PairAction T K C}
    (hacc : s.Accounts hasOnMsg a) (hs : s.step mgmt hasOnMsg a = some t) : t.Accountable := by
  cases a with
  | registerProviderBind n serviceId provider thread =>
    obtain rfl := Option.some.inj hs
    exact h.setRegistry n _
  | registerRemoteEx n serviceId nodeName udsPath =>
    obtain rfl := Option.some.inj hs
    exact h.setRegistry n _
  | unregisterProvider n serviceId =>
    obtain rfl := Option.some.inj hs
    exact h.setRegistry n _
  | send n th bytes env =>
    simp only [NodePair.step] at hs
    split at hs
    · obtain rfl := Option.some.inj hs
      exact h.send (‹_ ∧ _›).1 bytes env
    · cases hs
  | produce n th spurious =>
    simp only [NodePair.step] at hs
    split at hs
    · obtain ⟨queue, hqueue, rfl⟩ := Option.map_eq_some_iff.mp hs
      exact h.produced ‹_› hacc hqueue
    · cases hs
  | allocEvent n th chunk =>
    simp only [NodePair.step] at hs
    split at hs
    · rename_i udsPath hcall
      obtain rfl := Option.some.inj hs
      have hidle := (h.mail n).calls th
      rw [hcall] at hidle
      refine h.setCall hidle ?_
      cases chunk <;> rfl
    · cases hs
  | ring n th env =>
    simp only [NodePair.step] at hs
    split at hs
    · rename_i udsPath chunk hcall
      split at hs
      · obtain rfl := Option.some.inj hs
        have hf := s.frame_nosIpcSendEnqueueEx n udsPath ⟨shmEvent chunk, none⟩ env
        have hidle := (h.mail n).calls th
        rw [hcall] at hidle
        refine (h.enqueueEx n udsPath env ?_ ?_).setCall ?_ rfl
        · rintro id ⟨⟩
        · rintro m - ⟨⟩
        · rw [hf.queue]
          exact hidle
      · cases hs
    · cases hs
  | txTurn n k outcome => exact h.txTurn hacc hs
  | accept n fd =>
    simp only [NodePair.step] at hs
    split at hs
    · cases hs
    · split at hs
      · obtain rfl := Option.some.inj hs
        exact h.quiet rfl rfl rfl rfl rfl rfl h.mail
      · cases hs
  | recv n fd k env =>
    simp only [NodePair.step] at hs
    split at hs
    · obtain rfl := Option.some.inj hs
      exact h.recv (‹_ ∧ Ready _ _ _ _›).2.1 hacc
    · cases hs
  | recvFails n fd k =>
    simp only [NodePair.step] at hs
    split at hs
    · obtain rfl := Option.some.inj hs
      exact h.dropLink hacc k
    · cases hs
  | drain n env =>
    simp only [NodePair.step] at hs
    split at hs
    · obtain ⟨queue, hqueue, rfl⟩ := Option.map_eq_some_iff.mp hs
      exact h.drain (‹_ ∧ Ready _ _ _ _›).2.1 hacc hqueue
    · cases hs
  | messages n th =>
    obtain rfl := Option.some.inj hs
    exact h.processThreadMessage hacc

omit [DecidableEq T] [DecidableEq K] in
theorem accountable_init : (init : NodePair T K C).Accountable where
  mail n :=
    { inv := NosShmMpscQueue.inv_empty
      length := rfl
      calls := fun _ => rfl }
  links p _ buf hbuf := by
    cases p with
    | ring n k => simp [bufs, init, NosIpcConn.create, RingBuffer.contents_init] at hbuf
    | socket n i => cases hbuf
    | shm n => cases hbuf
    | thread n th => simp [bufs, init, RingBuffer.contents_init] at hbuf
  counted c id hx := nomatch hx
  bound m hm := nomatch hm
  settled m hm := nomatch hm
  once m hm := nomatch hm

omit [DecidableEq T] [DecidableEq K] in
theorem Accountable.inSlot (h : s.Accountable) (hq : s.Quiescent)
    (hbuf : buf ∈ s.bufs (.shm m.receiver : Place T K)) (hcarries : buf.Carries m) :
    ∃ k, ∃ buf, (s.queue m.receiver).returned.length ≤ k ∧
      (s.claimed m.receiver)[k]? = some buf ∧ buf.Carries m ∧
      (s.queue m.receiver).claims[k]? = some ((s.queue m.receiver).offsets
        (((s.queue m.receiver).head + (k - (s.queue m.receiver).returned.length)) %
          nosShmQueueSize)) := by
  have hmail : MailSound (s.queue m.receiver) (s.claimed m.receiver) (s.call (!m.receiver)) := by
    simpa using h.mail (!m.receiver)
  have hbuf' : buf ∈ (s.claimed m.receiver).drop (s.queue m.receiver).returned.length := hbuf
  obtain ⟨j, hj⟩ := List.mem_iff_getElem?.mp hbuf'
  rw [List.getElem?_drop] at hj
  have hlt := (List.getElem?_eq_some_iff.mp hj).1
  rw [hmail.length] at hlt
  refine ⟨_, buf, Nat.le_add_right _ j, hj, hcarries, ?_⟩
  rcases hmail.inv.window _ (Nat.le_add_right _ j) hlt with ⟨th, offset, tail, hstore⟩ | ⟨hacc, -⟩
  · have hidle := hmail.calls th
    rw [hq.calls, hstore] at hidle
    cases hidle
  · rcases hmail.inv.inOrder.stored _ hacc (Nat.le_add_right _ j) with hslot | ⟨-, offset, hc, -⟩
    · exact hslot
    · rw [(hq.draining m.receiver).2] at hc
      cases hc

omit [DecidableEq T] [DecidableEq K] in
/-- In a quiescent state, what is at a place is on its way, and what is counted is counted once. -/
theorem Accountable.noSilentLoss (h : s.Accountable) (hq : s.Quiescent) : s.NoSilentLoss := by
  intro m hm
  rcases h.settled m hm with ⟨p, hp, buf, hbuf, hcarries⟩ | hdispatched | ⟨c, hc⟩
  · refine .inr (.inl ?_)
    cases p with
    | ring n k =>
      obtain rfl : n = !m.receiver := by simp [← hp, Place.receiver]
      exact .inl ⟨k, buf, hbuf, hcarries⟩
    | socket n i =>
      obtain rfl : n = m.receiver := hp
      exact .inr (.inl ⟨i, buf, hbuf, hcarries⟩)
    | shm n =>
      obtain rfl : n = m.receiver := hp
      exact .inr (.inr (h.inSlot hq hbuf hcarries))
    | thread n th =>
      have hempty := (s.msgQueue n th).contents_of_isEmpty (hq.threads n th)
      rw [show s.bufs (.thread n th) = _ from hempty] at hbuf
      cases hbuf
  · exact .inl hdispatched
  · exact .inr (.inr ⟨c, hc, fun c' hc' => h.once m hm c' c hc' hc⟩)

end Steps

section Runs

variable [DecidableEq T] [DecidableEq K]

/-- In every run whose steps meet the conditions, no quiescent state has lost a message without a
trace. -/
theorem always_noSilentLoss (mgmt : T) (hasOnMsg : C → Bool) (actions : List (PairAction T K C))
    (h : Guarded (step mgmt hasOnMsg) (Accounts hasOnMsg) init actions) :
    Always (step mgmt hasOnMsg) (fun s => s.Quiescent → s.NoSilentLoss) init actions :=
  always_of_guarded (fun _ _ _ hs ha hstep => hs.step ha hstep) (fun _ hs => hs.noSilentLoss)
    accountable_init h

end Runs

def sampleMsg (serviceId : ℕ) : Bytes :=
  headerBytes ⟨nosIpcMagic, nosIpcVersion, serviceId, 0, 1, 0, 0, 0⟩

def sampleEnv (fd : ℕ) : SendEnv Unit := ⟨none, false, some (), .connects fd, none⟩

/-- A message that goes over a new link to the provider of its service. -/
theorem always_noSilentLoss_over_link :
    Always (step () fun _ : Unit => true) (fun s => s.Quiescent → s.NoSilentLoss) init
      [.registerProviderBind true 7 (some ()) (some ()),
        .registerRemoteEx false 7 (some "B") (some "/tmp/b.sock"),
        .send false () (sampleMsg 7) (sampleEnv 3), .txTurn false () .sent, .accept true 4,
        .recv true 4 none ⟨.nosBufferInitPool [] [(64, 1)], [], true, none, sampleEnv 5⟩,
        .messages true ()] := by
  apply always_noSilentLoss
  refine .cons rfl trivial ?_
  refine .cons rfl trivial ?_
  refine .cons rfl trivial ?_
  refine .cons rfl nofun ?_
  refine .cons rfl trivial ?_
  refine .cons rfl ?_ (.cons rfl ?_ trivial)
  · rintro i ⟨⟩
    rw [if_neg (by decide +kernel)]
    rintro buf ⟨⟩
    unfold MayTake
    rw [if_neg (by decide +kernel), if_neg (by decide +kernel)]
    exact fun _ => ⟨by decide +kernel, by unfold HasRoom; decide +kernel⟩
  · exact fun _ _ => by decide +kernel

/-- The `HELLO` of a node with a name of one byte. -/
def sampleHello : Bytes :=
  headerBytes ⟨nosIpcMagic, nosIpcVersion, 0, 0, nosIpcMsgHello, 0, 0, 2⟩ ++ [65, 0]

/-- A node whose own send fails closes the link, on which a message for it is unread. -/
theorem not_noSilentLoss_unread :
    ¬ Always (step () fun _ : Unit => true) (fun s => s.Quiescent → s.NoSilentLoss) init
      [.registerProviderBind true 7 (some ()) (some ()),
        .registerRemoteEx false 7 (some "B") (some "/tmp/b.sock"),
        .registerRemoteEx true 8 (some "A") (some "/tmp/a.sock"),
        .send false () (sampleMsg 7) { sampleEnv 3 with hello := some sampleHello },
        .txTurn false () .sent, .txTurn false () .sent, .accept true 4,
        .recv true 4 none ⟨.nosBufferInitPool [] [(64, 1)], [], true, some (), sampleEnv 5⟩,
        .send true () (sampleMsg 8) (sampleEnv 5), .txTurn true () .failed] := by
  intro h
  have hquiescent := h.last rfl
  have hloss := hquiescent ⟨by rintro (_ | _) ⟨⟩ <;> rfl, by rintro (_ | _) <;> exact ⟨rfl, rfl⟩,
    by rintro (_ | _) ⟨⟩ <;> decide +kernel⟩
  have howed := hloss ⟨.pool 0, true, 7⟩ (by decide +kernel)
  rcases howed with hd | (⟨⟨⟩, hring⟩ | ⟨i, hsocket⟩ | ⟨k, hshm⟩) | ⟨c, hc, -⟩
  · exact absurd hd (by decide +kernel)
  · exact absurd hring (by decide +kernel)
  · rcases i with _ | i
    · obtain ⟨buf, hbuf, -⟩ := hsocket
      cases hbuf
    · obtain ⟨buf, hbuf, -⟩ := hsocket
      cases hbuf
  · obtain ⟨buf, -, hbuf, -⟩ := hshm
    cases hbuf
  · cases c <;> exact absurd hc (by decide +kernel)

end NodePair

end GeminiNOS

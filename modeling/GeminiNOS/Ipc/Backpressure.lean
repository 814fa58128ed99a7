import GeminiNOS.Foundations.Run
import GeminiNOS.Ipc.Sockets

/-! # Backpressure

An enqueue that finds the ring of its connection above the high watermark marks the
connection as congested, and a call that sends until the ring is empty takes the mark away.
A call that stops at a full socket leaves it, and an enqueue does not read it.
-/

namespace GeminiNOS

open Foundations

/-- A call on a connection under its lock, or what the receiver makes of it. -/
inductive TxCall (B : Type*) where
  | enqueue (env : EnqueueEnv B) (buf : B)
  | processTx (outcomes : List SendOutcome)
  | linkGone
  | promote (fd : ℕ)

/-- A connection, with what has been observed of its mark: for each time it was set, the number of
buffers that an enqueue had found; the mark at each acceptance of a buffer; and the number of
buffers and the mark after each call of `nos_ipc_process_tx`. -/
structure FlowHistory (B : Type*) where
  conn : NosIpcConn B
  raised : List (Option ℕ)
  accepted : List Bool
  drained : List (ℕ × Bool)

namespace NosIpcConn

variable {B : Type*} {conn conn' : NosIpcConn B} {env : EnqueueEnv B} {buf : B}
  {outcomes : List SendOutcome} {n : ℕ}

def rise (before after : NosIpcConn B) (found : Option ℕ) : List (Option ℕ) :=
  if before.isCongested = false ∧ after.isCongested = true then [found] else []

theorem rise_eq_nil {found : Option ℕ}
    (h : conn'.isCongested = true → conn.isCongested = true) : rise conn conn' found = [] := by
  apply if_neg
  rintro ⟨hbefore, hafter⟩
  cases hbefore.symm.trans (h hafter)

theorem isCongested_reconnect : (conn.reconnect env).isCongested =
    (conn.isCongested && !decide (conn.Connects env)) := by
  by_cases h : conn.Connects env
  · obtain ⟨fd, hfd⟩ := reconnect_of_connects h
    have hkept : ((conn.linkUp fd).nosIpcSendHello env.hello).isCongested = false := by
      unfold nosIpcSendHello
      split
      · rfl
      · split <;> rfl
    rw [hfd, hkept]
    simp [h]
  · rw [reconnect_of_not_connects h]
    simp [h]

/-- The mark is set above the high watermark only. -/
theorem lt_used_of_rises (hbefore : conn.isCongested = false)
    (hafter : (conn.enqueueTx buf).2.isCongested = true) : txHighWatermark < conn.used := by
  unfold enqueueTx at hafter
  split at hafter
  · cases hbefore.symm.trans hafter
  · split at hafter
    · assumption
    · split at hafter <;> cases hbefore.symm.trans hafter

/-- A call of `nos_ipc_process_tx` that stops at a full socket leaves the mark, every other one
clears it. -/
theorem nosIpcProcessTx_mark (h : conn.nosIpcProcessTx outcomes = some conn') :
    (outcomes.getLast? = some .again ∧ conn'.isCongested = conn.isCongested ∧
        conn'.used + outcomes.length = conn.used + 1) ∨
      (outcomes.getLast? ≠ some .again ∧ conn'.isCongested = false) := by
  obtain ⟨n, hn, hends⟩ := exists_txEnds h
  cases hends with
  | drained hend =>
    refine Or.inr ⟨by simp [List.getLast?_replicate], ?_⟩
    have hused : (conn.afterSends n).used < txLowWatermark := by
      rw [used_eq, (RingBuffer.isEmpty_iff _).mp hend]
      decide
    unfold relieve
    split
    · rfl
    · exact Bool.eq_false_iff.mpr fun hc => ‹¬ (_ ∧ _)› ⟨hc, hused⟩
  | stopped hend =>
    refine Or.inl ⟨by simp, rfl, ?_⟩
    have hused := used_afterSends hn
    simp only [List.length_append, List.length_replicate, List.length_singleton]
    omega
  | broken hend => exact Or.inr ⟨by simp, rfl⟩

theorem nosIpcSendEnqueueEx_of_linked (env : EnqueueEnv B) (buf : B) (hfd : 0 ≤ conn.fd)
    (hconnected : conn.isConnected = true) :
    conn.reconnect env = conn ∧
      (conn.used ≤ txHighWatermark →
        conn.enqueueTx buf = (.ok, { conn with tx := conn.tx.push buf }) ∧
          ({ conn with tx := conn.tx.push buf } : NosIpcConn B).used = conn.used + 1) ∧
      (txHighWatermark < conn.used →
        conn.enqueueTx buf = (.errBusy, { conn with isCongested := true })) := by
  have hnew : ¬ conn.Connects env := fun h => absurd h.1.1 (Int.not_lt.mpr hfd)
  refine ⟨reconnect_of_not_connects hnew, fun hle => ?_, fun hlt => ?_⟩
  · have hfull := not_isFull_of_used_le hle
    constructor
    · rw [enqueueTx, if_neg (by simp [hconnected]), if_neg (Nat.not_lt.mpr hle), if_neg hfull]
    · rw [used_eq, used_eq]
      exact conn.tx.used_push hfull
  · rw [enqueueTx, if_neg (by simp [hconnected]), if_pos hlt]

end NosIpcConn

namespace FlowHistory

variable {B : Type*} {s s' : FlowHistory B} {call : TxCall B} {env : EnqueueEnv B} {buf : B}
  {n : ℕ}

def start (null : B) : FlowHistory B := ⟨.create null, [], [], []⟩

def step (s : FlowHistory B) : TxCall B → Option (FlowHistory B)
  | .enqueue env buf =>
    let linked := s.conn.reconnect env
    let r := linked.enqueueTx buf
    some
      { s with
        conn := r.2
        raised := s.raised ++ s.conn.rise linked none ++ linked.rise r.2 (some linked.used)
        accepted := s.accepted ++ if r.1 = .ok then [linked.isCongested] else [] }
  | .processTx outcomes => (s.conn.nosIpcProcessTx outcomes).map fun conn =>
      { s with
        conn := conn
        raised := s.raised ++ s.conn.rise conn none
        drained := s.drained ++ [(conn.used, conn.isCongested)] }
  | .linkGone => some
      { s with
        conn := s.conn.linkGone
        raised := s.raised ++ s.conn.rise s.conn.linkGone none }
  | .promote fd => some
      { s with
        conn := s.conn.promote fd
        raised := s.raised ++ s.conn.rise (s.conn.promote fd) none }

/-- The law of the watermarks. -/
structure Hysteresis (s : FlowHistory B) : Prop where
  raised : ∀ found ∈ s.raised, ∃ used, found = some used ∧ txHighWatermark < used
  accepted : ∀ mark ∈ s.accepted, mark = false
  drained : ∀ drain ∈ s.drained, drain.1 < txLowWatermark → drain.2 = false

/-- An enqueue that meets a marked connection, and connects no new socket, finds the ring above the
high watermark; and a call of `nos_ipc_process_tx` on a marked connection that stops at a full
socket has not sent down to below the low watermark. -/
def RespectsMark (s : FlowHistory B) : TxCall B → Prop
  | .enqueue env _ => s.conn.isCongested = true → s.conn.isConnected = true →
      ¬ s.conn.Connects env → txHighWatermark < s.conn.used
  | .processTx outcomes => s.conn.isCongested = true → outcomes.getLast? = some .again →
      txLowWatermark + outcomes.length ≤ s.conn.used + 1
  | _ => True

/-- Whatever is called, the mark is set by enqueues above the high watermark only. -/
theorem raised_step (h : ∀ found ∈ s.raised, ∃ used, found = some used ∧ txHighWatermark < used)
    (hs : s.step call = some s') :
    ∀ found ∈ s'.raised, ∃ used, found = some used ∧ txHighWatermark < used := by
  cases call with
  | enqueue env buf =>
    obtain rfl := Option.some.inj hs
    have hlinked : s.conn.rise (s.conn.reconnect env) none = [] := by
      apply NosIpcConn.rise_eq_nil
      rw [NosIpcConn.isCongested_reconnect, Bool.and_eq_true]
      exact And.left
    intro found hfound
    simp only [hlinked, List.append_nil, List.mem_append] at hfound
    rcases hfound with hfound | hfound
    · exact h found hfound
    · unfold NosIpcConn.rise at hfound
      split at hfound
      · rename_i hrise
        obtain rfl := List.mem_singleton.mp hfound
        exact ⟨_, rfl, NosIpcConn.lt_used_of_rises hrise.1 hrise.2⟩
      · cases hfound
  | processTx outcomes =>
    obtain ⟨conn, hconn, rfl⟩ := Option.map_eq_some_iff.mp hs
    have hnone : s.conn.rise conn none = [] := by
      apply NosIpcConn.rise_eq_nil
      rcases NosIpcConn.nosIpcProcessTx_mark hconn with ⟨-, hmark, -⟩ | ⟨-, hmark⟩
      · exact fun hc => hmark.symm.trans hc
      · exact fun hc => absurd (hmark.symm.trans hc) Bool.false_ne_true
    rwa [hnone, List.append_nil]
  | linkGone =>
    obtain rfl := Option.some.inj hs
    have hnone : s.conn.rise s.conn.linkGone none = [] := NosIpcConn.rise_eq_nil fun hc => hc
    rwa [hnone, List.append_nil]
  | promote fd =>
    obtain rfl := Option.some.inj hs
    have hnone : s.conn.rise (s.conn.promote fd) none = [] := NosIpcConn.rise_eq_nil fun hc => hc
    rwa [hnone, List.append_nil]

theorem accepted_enqueue :
    ((s.conn.nosIpcSendEnqueueEx env buf).1 = .ok → (s.conn.reconnect env).isCongested = false) ↔
      s.RespectsMark (.enqueue env buf) := by
  rw [NosIpcConn.nosIpcSendEnqueueEx_ok_iff, NosIpcConn.isCongested_reconnect, RespectsMark,
    NosIpcConn.Accepts, NosIpcConn.backlog, NosIpcConn.used_eq]
  by_cases hnew : s.conn.Connects env
  · simp [hnew]
  · simp only [hnew, or_false, false_and, if_false, Nat.add_zero, decide_false, Bool.not_false,
      Bool.and_true, not_false_eq_true, true_implies, Bool.eq_false_iff]
    constructor
    · intro h hmark hconnected
      by_contra hle
      exact h ⟨hconnected, Nat.not_lt.mp hle⟩ hmark
    · rintro h ⟨hconnected, hle⟩ hmark
      exact absurd (h hmark hconnected) (Nat.not_lt.mpr hle)

theorem hysteresis_step_iff (h : s.Hysteresis) (hs : s.step call = some s') :
    s'.Hysteresis ↔ s.RespectsMark call := by
  have hraised := raised_step h.raised hs
  cases call with
  | enqueue env buf =>
    obtain rfl := Option.some.inj hs
    rw [← accepted_enqueue]
    constructor
    · intro h' hok
      apply h'.accepted
      apply List.mem_append_right
      show _ ∈ if (s.conn.nosIpcSendEnqueueEx env buf).1 = .ok then _ else _
      rw [if_pos hok]
      exact List.mem_singleton.mpr rfl
    · intro hmark
      refine ⟨hraised, fun mark hmem => ?_, h.drained⟩
      rcases List.mem_append.mp hmem with hmem | hmem
      · exact h.accepted mark hmem
      · split at hmem
        · rw [List.mem_singleton.mp hmem]
          exact hmark ‹_›
        · cases hmem
  | processTx outcomes =>
    obtain ⟨conn, hconn, rfl⟩ := Option.map_eq_some_iff.mp hs
    have hmark := NosIpcConn.nosIpcProcessTx_mark hconn
    constructor
    · intro h' hcongested hlast
      rcases hmark with ⟨-, hmark, hlen⟩ | ⟨hne, -⟩
      · have hdrain := h'.drained _ (List.mem_append_right _ (List.mem_singleton.mpr rfl))
        by_contra hlt
        have hclear : conn.isCongested = false := hdrain (by show conn.used < _; omega)
        cases hclear.symm.trans (hmark.trans hcongested)
      · exact absurd hlast hne
    · intro hrespects
      refine ⟨hraised, h.accepted, fun drain hmem hlt => ?_⟩
      rcases List.mem_append.mp hmem with hmem | hmem
      · exact h.drained drain hmem hlt
      · obtain rfl := List.mem_singleton.mp hmem
        rcases hmark with ⟨hlast, hmark, hlen⟩ | ⟨-, hclear⟩
        · show conn.isCongested = false
          rw [hmark, Bool.eq_false_iff]
          intro hcongested
          have hle := hrespects hcongested hlast
          have hlow : conn.used < txLowWatermark := hlt
          omega
        · exact hclear
  | linkGone =>
    obtain rfl := Option.some.inj hs
    exact iff_of_true ⟨hraised, h.accepted, h.drained⟩ trivial
  | promote fd =>
    obtain rfl := Option.some.inj hs
    exact iff_of_true ⟨hraised, h.accepted, h.drained⟩ trivial

theorem hysteresis_start (null : B) : (start null).Hysteresis := by
  constructor
  · rintro _ ⟨⟩
  · rintro _ ⟨⟩
  · rintro _ ⟨⟩

/-- A run obeys the law of the watermarks if and only if its calls respect the mark. -/
theorem always_hysteresis_iff (null : B) (calls : List (TxCall B)) :
    Run.Always step Hysteresis (start null) calls ↔
      Run.Guarded step RespectsMark (start null) calls :=
  Run.always_iff_guarded (fun _ h => h) (fun _ _ _ _ _ h => h)
    (fun _ _ _ h hs => hysteresis_step_iff h hs) (hysteresis_start null)

theorem step_stopped (h : n < s.conn.used) :
    ∃ t, s.step (.processTx (List.replicate n .sent ++ [.again])) = some t ∧
      t.conn = s.conn.afterSends n ∧ (t.conn.used, s.conn.isCongested) ∈ t.drained := by
  have hconn := NosIpcConn.nosIpcProcessTx_stopped h
  refine ⟨_, Option.map_eq_some_iff.mpr ⟨_, hconn, rfl⟩, rfl, ?_⟩
  exact List.mem_append_right _ (List.mem_singleton.mpr rfl)

theorem exec_put (env : EnqueueEnv B) (buf : B) (hfd : 0 ≤ s.conn.fd)
    (hconnected : s.conn.isConnected = true) (hle : s.conn.used ≤ txHighWatermark) :
    ∃ s', Run.exec step s [.enqueue env buf, .processTx [.again]] = some s' ∧
      0 ≤ s'.conn.fd ∧ s'.conn.isConnected = true ∧ s'.conn.used = s.conn.used + 1 := by
  obtain ⟨hlinked, haccept, -⟩ :=
    NosIpcConn.nosIpcSendEnqueueEx_of_linked env buf hfd hconnected
  obtain ⟨henqueue, hused⟩ := haccept hle
  obtain ⟨t, ht, htconn⟩ : ∃ t, s.step (.enqueue env buf) = some t ∧
      t.conn = { s.conn with tx := s.conn.tx.push buf } := by
    refine ⟨_, rfl, ?_⟩
    show ((s.conn.reconnect env).enqueueTx buf).2 = _
    rw [hlinked, henqueue]
  rw [← htconn] at hused
  have hpos : 0 < t.conn.used := by omega
  obtain ⟨s', hs', hsconn, -⟩ := step_stopped hpos
  have hlen := NosIpcConn.used_afterSends hpos.le
  refine ⟨s', ?_, ?_, ?_, ?_⟩
  · rw [List.replicate_zero, List.nil_append] at hs'
    rw [Run.exec_cons, ht, Option.bind_some, Run.exec_cons, hs']
    rfl
  · rw [hsconn]
    show 0 ≤ t.conn.fd
    rw [htconn]
    exact hfd
  · rw [hsconn]
    show t.conn.isConnected = true
    rw [htconn]
    exact hconnected
  · rw [hsconn]
    omega

theorem exec_fill (env : EnqueueEnv B) (buf : B) (n : ℕ) (hfd : 0 ≤ s.conn.fd)
    (hconnected : s.conn.isConnected = true) (hn : s.conn.used + n ≤ txHighWatermark + 1) :
    ∃ s', Run.exec step s
        (List.replicate n [.enqueue env buf, .processTx [.again]]).flatten = some s' ∧
      0 ≤ s'.conn.fd ∧ s'.conn.isConnected = true ∧ s'.conn.used = s.conn.used + n := by
  induction n generalizing s with
  | zero => exact ⟨s, rfl, hfd, hconnected, rfl⟩
  | succ n ih =>
    obtain ⟨t, ht, hfd', hconnected', hused'⟩ := exec_put env buf hfd hconnected (by omega)
    obtain ⟨s', hs', hfd'', hconnected'', hused''⟩ := ih hfd' hconnected' (by omega)
    refine ⟨s', ?_, hfd'', hconnected'', by omega⟩
    rw [List.replicate_succ, List.flatten_cons]
    exact Run.exec_trans ht hs'

/-- The first enqueue connects a socket and puts a `HELLO` before its buffer, 899 more fill the
ring up to 901 buffers, and one more sets the mark. -/
theorem exists_marked : ∃ s : FlowHistory ℕ,
    Run.exec step (start 0) ((List.replicate 900 [.enqueue ⟨some "peer", .connects 3, some 0⟩ 0,
        .processTx [.again]]).flatten ++
          [.enqueue ⟨some "peer", .connects 3, some 0⟩ 0]) = some s ∧
      0 ≤ s.conn.fd ∧ s.conn.isConnected = true ∧ s.conn.used = txHighWatermark + 1 ∧
        s.conn.isCongested = true := by
  obtain ⟨env, henv⟩ : ∃ env : EnqueueEnv ℕ, env = ⟨some "peer", .connects 3, some 0⟩ := ⟨_, rfl⟩
  obtain ⟨s₁, hs₁, hfd₁, hconnected₁, hused₁⟩ : ∃ s₁ : FlowHistory ℕ,
      Run.exec step (start 0) [.enqueue env 0, .processTx [.again]] = some s₁ ∧
        0 ≤ s₁.conn.fd ∧ s₁.conn.isConnected = true ∧ s₁.conn.used = 2 := by
    rw [henv]
    exact ⟨_, rfl, by decide, rfl, rfl⟩
  have hroom : s₁.conn.used + 899 ≤ txHighWatermark + 1 := by
    rw [hused₁]
    decide
  obtain ⟨s₂, hs₂, hfd₂, hconnected₂, hused₂⟩ := exec_fill env 0 899 hfd₁ hconnected₁ hroom
  rw [hused₁] at hused₂
  obtain ⟨hlinked, -, hfull⟩ :=
    NosIpcConn.nosIpcSendEnqueueEx_of_linked env 0 hfd₂ hconnected₂
  have hmarked := hfull (by rw [hused₂]; decide)
  obtain ⟨s₃, hs₃, hconn₃⟩ : ∃ s₃, s₂.step (.enqueue env 0) = some s₃ ∧
      s₃.conn = { s₂.conn with isCongested := true } := by
    refine ⟨_, rfl, ?_⟩
    show ((s₂.conn.reconnect env).enqueueTx 0).2 = _
    rw [hlinked, hmarked]
  refine ⟨s₃, ?_, ?_, ?_, ?_, ?_⟩
  · rw [← henv, List.replicate_succ, List.flatten_cons]
    refine Run.exec_trans (Run.exec_trans hs₁ hs₂) ?_
    rw [Run.exec_cons, hs₃]
    rfl
  · rw [hconn₃]
    exact hfd₂
  · rw [hconn₃]
    exact hconnected₂
  · rw [hconn₃]
    exact hused₂
  · rw [hconn₃]

/-- A marked connection accepts a buffer once one has been sent; and a call that sends 702 buffers
before the socket is full leaves the mark on 199. -/
theorem not_hysteresis_marked :
    ¬ Run.Always step Hysteresis (start 0)
        ((List.replicate 900 [.enqueue ⟨some "peer", .connects 3, some 0⟩ 0,
            .processTx [.again]]).flatten ++ [.enqueue ⟨some "peer", .connects 3, some 0⟩ 0] ++
          [.processTx [.sent, .again], .enqueue ⟨some "peer", .connects 3, some 0⟩ 0]) ∧
      ¬ Run.Always step Hysteresis (start 0)
        ((List.replicate 900 [.enqueue ⟨some "peer", .connects 3, some 0⟩ 0,
            .processTx [.again]]).flatten ++ [.enqueue ⟨some "peer", .connects 3, some 0⟩ 0] ++
          [.processTx (List.replicate 702 .sent ++ [.again])]) := by
  obtain ⟨s, hs, hfd, hconnected, hused, hmark⟩ := exists_marked
  constructor
  · intro h
    have hlt : 1 < s.conn.used := by
      rw [hused]
      decide
    obtain ⟨t, ht, htconn, -⟩ := step_stopped hlt
    have hlen := NosIpcConn.used_afterSends hlt.le
    obtain ⟨hfd', hconnected', hmark'⟩ : 0 ≤ t.conn.fd ∧ t.conn.isConnected = true ∧
        t.conn.isCongested = true := by
      rw [htconn]
      exact ⟨hfd, hconnected, hmark⟩
    rw [← htconn] at hlen
    obtain ⟨hlinked, haccept, -⟩ := NosIpcConn.nosIpcSendEnqueueEx_of_linked
      ⟨some "peer", .connects 3, some 0⟩ 0 hfd' hconnected'
    obtain ⟨henqueue, -⟩ := haccept (by omega)
    obtain ⟨u, hu, haccepted⟩ : ∃ u,
        t.step (.enqueue ⟨some "peer", .connects 3, some 0⟩ 0) = some u ∧
          u.accepted = t.accepted ++ [true] := by
      refine ⟨_, rfl, ?_⟩
      simp only [hlinked, henqueue, if_true, hmark']
    have hexec : Run.exec step s [.processTx (List.replicate 1 .sent ++ [.again]),
        .enqueue ⟨some "peer", .connects 3, some 0⟩ 0] = some u := by
      rw [Run.exec_cons, ht, Option.bind_some, Run.exec_cons, hu]
      rfl
    have hmem : true ∈ u.accepted := by
      rw [haccepted]
      exact List.mem_append_right _ (List.mem_singleton.mpr rfl)
    cases (h.last (Run.exec_trans hs hexec)).accepted true hmem
  · intro h
    have hlt : 702 < s.conn.used := by
      rw [hused]
      decide
    obtain ⟨t, ht, htconn, hmem⟩ := step_stopped hlt
    have hlen := NosIpcConn.used_afterSends hlt.le
    have hexec : Run.exec step s [.processTx (List.replicate 702 .sent ++ [.again])] = some t := by
      rw [Run.exec_cons, ht]
      rfl
    have hlow : t.conn.used < txLowWatermark := by
      rw [htconn]
      unfold txLowWatermark txHighWatermark at *
      omega
    cases hmark.symm.trans ((h.last (Run.exec_trans hs hexec)).drained _ hmem hlow)

end FlowHistory

end GeminiNOS

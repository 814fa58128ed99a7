import GeminiNOS.Ipc.Message
import GeminiNOS.Ipc.Sockets
import GeminiNOS.Ipc.TxOrder

/-! # Handshakes

A new socket starts with a `HELLO` in the ring of its connection. The ring keeps what an
earlier socket has not sent, and the `HELLO` goes behind it.
-/

namespace GeminiNOS

open Foundations

/-- A message on a link. -/
structure IpcMsg where
  header : NosServiceMsg
  payload : Bytes
  deriving DecidableEq

/-- The message that `nos_ipc_send_hello` makes of what is in a chunk. -/
def helloMsg (name : Bytes) (chunk : NosServiceMsg) : IpcMsg where
  header :=
    { chunk with
      magic := nosIpcMagic
      version := nosIpcVersion
      msgCode := nosIpcMsgHello
      payloadLen := u32 (name.length + 1) }
  payload := name ++ [0]

/-- A `HELLO` that carries the name. -/
def IsHello (name : Bytes) (msg : IpcMsg) : Prop :=
  msg.header.magic = nosIpcMagic ∧ msg.header.msgCode = nosIpcMsgHello ∧ msg.payload = name ++ [0]

theorem isHello_helloMsg (name : Bytes) (chunk : NosServiceMsg) :
    IsHello name (helloMsg name chunk) :=
  ⟨rfl, rfl, rfl⟩

/-- A call on a connection under its lock, or what the receiver makes of it. An enqueue comes with
its path, the answer to a reconnection, and what is in the chunk of the `HELLO` if there is one. -/
inductive HandshakeCall where
  | enqueue (udsPath : Option String) (connect : ConnectOutcome) (chunk : Option NosServiceMsg)
      (msg : IpcMsg)
  | processTx (outcomes : List SendOutcome)
  | linkGone
  | promote (fd : ℕ)

/-- A connection, whether an enqueue has connected its socket and nothing has been handed to `send`
on it, and the first messages handed to `send` on the sockets that enqueues have connected. -/
structure HandshakeRun where
  conn : NosIpcConn IpcMsg
  fresh : Bool
  firsts : List IpcMsg

namespace NosIpcConn

variable {B : Type*} {conn : NosIpcConn B} {env : EnqueueEnv B} {buf : B}

/-- The enqueue that connects a socket leaves the oldest message of the ring at its head, else the
`HELLO`, else the new message. -/
theorem head?_contents_of_connects (h : conn.Connects env) :
    (conn.nosIpcSendEnqueueEx env buf).2.tx.contents.head? =
      conn.tx.contents.head?.or (env.hello.or (some buf)) := by
  rw [contents_enqueue, List.head?_append]
  by_cases hempty : conn.tx.IsEmpty
  · have hused := conn.tx.isEmpty_iff.mp hempty
    have hfull : ¬ conn.tx.IsFull := by
      rw [conn.tx.isFull_iff, hused]
      decide
    have haccepts : conn.Accepts env := by
      refine ⟨Or.inr h, ?_⟩
      rw [backlog, hused]
      split <;> decide
    rw [if_pos ((nosIpcSendEnqueueEx_ok_iff conn env buf).mpr haccepts), helloOf, if_pos h,
      helloPut, if_neg hfull, conn.tx.contents_of_isEmpty hempty]
    cases env.hello <;> rfl
  · have hcontents := conn.tx.contents_advance hempty
    rw [hcontents]
    rfl

end NosIpcConn

namespace HandshakeRun

variable {name : Bytes} {s s' : HandshakeRun} {call : HandshakeCall}

def start (null : IpcMsg) : HandshakeRun := ⟨.create null, false, []⟩

/-- The connection and what has been handed to `send` after one call. -/
def step (name : Bytes) (s : HandshakeRun) : HandshakeCall → Option HandshakeRun
  | .enqueue udsPath connect chunk msg =>
    let env : EnqueueEnv IpcMsg := ⟨udsPath, connect, chunk.map (helloMsg name)⟩
    some
      { s with
        conn := (s.conn.nosIpcSendEnqueueEx env msg).2
        fresh := s.fresh || decide (s.conn.Connects env) }
  | .processTx outcomes => (s.conn.nosIpcProcessTx outcomes).map fun conn =>
      { conn := conn
        fresh := s.fresh && decide s.conn.tx.IsEmpty
        firsts := s.firsts ++
          if s.fresh = true ∧ ¬ s.conn.tx.IsEmpty then [s.conn.tx.first] else [] }
  | .linkGone => some { s with conn := s.conn.linkGone, fresh := false }
  | .promote fd => some { s with conn := s.conn.promote fd, fresh := false }

/-- The message that the next `send` on a new socket gets. -/
def nextFirst (s : HandshakeRun) : Option IpcMsg :=
  if s.fresh then s.conn.tx.contents.head? else none

/-- The first message that `send` has got, or is about to get, on every socket that an enqueue has
connected is a `HELLO` with the name. -/
structure HandshakeFirst (name : Bytes) (s : HandshakeRun) : Prop where
  handed : ∀ msg ∈ s.firsts, IsHello name msg
  next : ∀ msg ∈ s.nextFirst, IsHello name msg

/-- An enqueue that connects a socket finds such a `HELLO` at the head of the ring, or it finds the
ring empty and gets a buffer for its own, or brings one. -/
def GreetsFirst (name : Bytes) (s : HandshakeRun) : HandshakeCall → Prop
  | .enqueue udsPath connect chunk msg =>
    s.conn.Connects ⟨udsPath, connect, chunk.map (helloMsg name)⟩ →
      (∃ oldest ∈ s.conn.tx.contents.head?, IsHello name oldest) ∨
        (s.conn.tx.IsEmpty ∧ (chunk.isSome ∨ IsHello name msg))
  | _ => True

theorem isHello_head_iff {tx : RingBuffer IpcMsg txQueueSize} {chunk : Option NosServiceMsg}
    {msg : IpcMsg} :
    (∀ first ∈ tx.contents.head?.or ((chunk.map (helloMsg name)).or (some msg)),
        IsHello name first) ↔
      (∃ oldest ∈ tx.contents.head?, IsHello name oldest) ∨
        (tx.IsEmpty ∧ (chunk.isSome ∨ IsHello name msg)) := by
  by_cases hempty : tx.IsEmpty
  · rw [tx.contents_of_isEmpty hempty]
    cases chunk with
    | none => simp [hempty]
    | some chunk => simp [hempty, isHello_helloMsg]
  · rw [tx.contents_advance hempty]
    simp [hempty]

/-- The law, and a new socket has something to send. -/
structure Sound (name : Bytes) (s : HandshakeRun) : Prop extends HandshakeFirst name s where
  not_isEmpty : s.fresh = true → ¬ s.conn.tx.IsEmpty

theorem nextFirst_of_fresh (h : s.fresh = true) : s.nextFirst = s.conn.tx.contents.head? :=
  if_pos h

theorem nextFirst_of_not_fresh (h : s.fresh = false) : s.nextFirst = none := by
  rw [nextFirst, h]
  rfl

/-- What an enqueue appends to a ring that holds something stays behind its head. -/
theorem head?_contents_enqueue {env : EnqueueEnv IpcMsg} {msg : IpcMsg}
    (hempty : ¬ s.conn.tx.IsEmpty) :
    (s.conn.nosIpcSendEnqueueEx env msg).2.tx.contents.head? = s.conn.tx.contents.head? := by
  rw [NosIpcConn.contents_enqueue, s.conn.tx.contents_advance hempty]
  rfl

theorem not_isEmpty_iff {tx : RingBuffer IpcMsg txQueueSize} :
    ¬ tx.IsEmpty ↔ tx.contents.head?.isSome := by
  constructor
  · intro hempty
    rw [tx.contents_advance hempty]
    rfl
  · intro hsome hempty
    rw [tx.contents_of_isEmpty hempty] at hsome
    cases hsome

theorem not_isEmpty_step (h : s.fresh = true → ¬ s.conn.tx.IsEmpty)
    (hs : s.step name call = some s') : s'.fresh = true → ¬ s'.conn.tx.IsEmpty := by
  intro hfresh
  cases call with
  | enqueue udsPath connect chunk msg =>
    obtain rfl := Option.some.inj hs
    rw [not_isEmpty_iff]
    by_cases hnew : s.conn.Connects ⟨udsPath, connect, chunk.map (helloMsg name)⟩
    · rw [NosIpcConn.head?_contents_of_connects hnew]
      cases s.conn.tx.contents.head? <;> cases chunk <;> rfl
    · simp only [hnew, decide_false, Bool.or_false] at hfresh
      rw [head?_contents_enqueue (h hfresh)]
      exact not_isEmpty_iff.mp (h hfresh)
  | processTx outcomes =>
    obtain ⟨conn, -, rfl⟩ := Option.map_eq_some_iff.mp hs
    simp only [Bool.and_eq_true, decide_eq_true_eq] at hfresh
    exact absurd hfresh.2 (h hfresh.1)
  | linkGone =>
    obtain rfl := Option.some.inj hs
    cases hfresh
  | promote fd =>
    obtain rfl := Option.some.inj hs
    cases hfresh

theorem nextFirst_enqueue_of_not_connects (h : s.fresh = true → ¬ s.conn.tx.IsEmpty)
    {udsPath : Option String} {connect : ConnectOutcome} {chunk : Option NosServiceMsg}
    {msg : IpcMsg} (hnew : ¬ s.conn.Connects ⟨udsPath, connect, chunk.map (helloMsg name)⟩)
    (hs : s.step name (.enqueue udsPath connect chunk msg) = some s') :
    s'.nextFirst = s.nextFirst := by
  obtain rfl := Option.some.inj hs
  cases hfresh : s.fresh with
  | false =>
    rw [nextFirst_of_not_fresh hfresh]
    apply nextFirst_of_not_fresh
    simp [hnew]
  | true =>
    rw [nextFirst_of_fresh hfresh, ← head?_contents_enqueue (h hfresh)]
    apply nextFirst_of_fresh
    simp

theorem handshakeFirst_step_iff (h : s.Sound name) (hs : s.step name call = some s') :
    s'.HandshakeFirst name ↔ s.GreetsFirst name call := by
  cases call with
  | enqueue udsPath connect chunk msg =>
    by_cases hnew : s.conn.Connects ⟨udsPath, connect, chunk.map (helloMsg name)⟩
    · obtain rfl := Option.some.inj hs
      have hnext := nextFirst_of_fresh (s := { s with
        conn := (s.conn.nosIpcSendEnqueueEx ⟨udsPath, connect, chunk.map (helloMsg name)⟩ msg).2
        fresh := s.fresh || decide
          (s.conn.Connects ⟨udsPath, connect, chunk.map (helloMsg name)⟩) }) (by simp [hnew])
      rw [NosIpcConn.head?_contents_of_connects hnew] at hnext
      rw [GreetsFirst, forall_prop_of_true hnew, ← isHello_head_iff, ← hnext]
      exact ⟨fun h' => h'.next, fun h' => ⟨h.handed, h'⟩⟩
    · have hnext := nextFirst_enqueue_of_not_connects h.not_isEmpty hnew hs
      refine iff_of_true ⟨?_, ?_⟩ fun hc => absurd hc hnew
      · obtain rfl := Option.some.inj hs
        exact h.handed
      · rw [hnext]
        exact h.next
  | processTx outcomes =>
    obtain ⟨conn, -, rfl⟩ := Option.map_eq_some_iff.mp hs
    refine iff_of_true ⟨fun msg hmem => ?_, ?_⟩ trivial
    · rcases List.mem_append.mp hmem with hmem | hmem
      · exact h.handed msg hmem
      · split at hmem
        · rename_i hcond
          obtain rfl := List.mem_singleton.mp hmem
          apply h.next
          rw [nextFirst_of_fresh hcond.1, s.conn.tx.contents_advance hcond.2]
          rfl
        · cases hmem
    · intro msg hmem
      rw [nextFirst_of_not_fresh] at hmem
      · cases hmem
      · cases hfresh : s.fresh with
        | false => rfl
        | true => simpa [hfresh] using h.not_isEmpty hfresh
  | linkGone =>
    obtain rfl := Option.some.inj hs
    exact iff_of_true ⟨h.handed, by rintro _ ⟨⟩⟩ trivial
  | promote fd =>
    obtain rfl := Option.some.inj hs
    exact iff_of_true ⟨h.handed, by rintro _ ⟨⟩⟩ trivial

theorem sound_start (null : IpcMsg) : (start null).Sound name := by
  refine ⟨⟨?_, ?_⟩, ?_⟩
  · rintro _ ⟨⟩
  · rintro _ ⟨⟩
  · rintro ⟨⟩

/-- In a run every socket that an enqueue connects starts with a `HELLO` if and only if every such
enqueue puts one at the head of the ring. -/
theorem always_handshakeFirst_iff (name : Bytes) (null : IpcMsg) (calls : List HandshakeCall) :
    Run.Always (step name) (HandshakeFirst name) (start null) calls ↔
      Run.Guarded (step name) (GreetsFirst name) (start null) calls :=
  Run.always_iff_guarded (fun _ h => h.toHandshakeFirst)
    (fun _ _ _ h hs h' => ⟨h', not_isEmpty_step h.not_isEmpty hs⟩)
    (fun _ _ _ h hs => handshakeFirst_step_iff h hs) (sound_start null)

/-- The first socket takes the `HELLO` and fails on the message behind it, which the second socket
then starts with. -/
theorem not_handshakeFirst_left_message :
    ¬ Run.Always (step [65]) (HandshakeFirst [65])
        (start ⟨⟨0, 0, 0, 0, 0, 0, 0, 0⟩, []⟩)
        [.enqueue (some "peer") (.connects 3) (some ⟨0, 0, 0, 0, 0, 0, 0, 0⟩)
            ⟨⟨nosIpcMagic, nosIpcVersion, 1, 0, 7, 0, 0, 1⟩, [1]⟩,
          .processTx [.sent, .failed],
          .enqueue (some "peer") (.connects 4) (some ⟨0, 0, 0, 0, 0, 0, 0, 0⟩)
            ⟨⟨nosIpcMagic, nosIpcVersion, 1, 0, 7, 0, 0, 1⟩, [2]⟩,
          .processTx [.sent, .sent, .sent]] := by
  intro h
  obtain ⟨s, hfirst, hfirsts⟩ := h.exists_last firsts
    [helloMsg [65] ⟨0, 0, 0, 0, 0, 0, 0, 0⟩,
      ⟨⟨nosIpcMagic, nosIpcVersion, 1, 0, 7, 0, 0, 1⟩, [1]⟩] rfl
  have hmem : ⟨⟨nosIpcMagic, nosIpcVersion, 1, 0, 7, 0, 0, 1⟩, [1]⟩ ∈ s.firsts := by
    rw [hfirsts]
    exact List.mem_cons_of_mem _ (List.mem_singleton.mpr rfl)
  exact absurd (hfirst.handed _ hmem).2.1 (by decide)

end HandshakeRun

end GeminiNOS

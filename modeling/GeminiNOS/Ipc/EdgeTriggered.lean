import GeminiNOS.Ipc.Receive

/-! # Edge-triggered links

A connected link is registered with `EPOLLIN | EPOLLOUT | EPOLLET`, an accepted
one level-triggered until its `HELLO` promotes it. An arrival raises an edge,
which `epoll_wait` reports and clears, and for each report the loop calls the
handler once.
-/

namespace GeminiNOS

open Foundations Run

/-- How a socket is registered with `epoll`. -/
inductive LinkMode where
  | passive
  | active
  | dropped
  deriving DecidableEq, Repr

/-- A socket, its edge in `epoll`, and the event that the loop has yet to handle. -/
structure Link where
  sock : RxSocket
  mode : LinkMode
  edge : Bool
  reported : Bool
  deriving DecidableEq, Repr

/-- What a call of the handler depends on besides the socket. -/
structure HandlerEnv where
  pool : NosBufferPool
  stack : Bytes
  sendFails : Bool
  connFound : Bool
  added : Bool
  writable : Bool

/-- The steps of the peer, the kernel, the loop and the senders on a link. -/
inductive LinkAction where
  | arrive (datagram : Bytes)
  | peerClose
  | becomeWritable
  | epollWait
  | handle (env : HandlerEnv)
  | sendError

namespace Link

/-- `nos_ipc_event_handler`: `nos_ipc_process_tx`, which closes the link when a send fails, and
then `nos_ipc_recv_handler`. -/
def nosIpcEventHandler (link : Link) (env : HandlerEnv) : Link :=
  if env.sendFails then { link with mode := .dropped, reported := false }
  else
    let r := nosIpcRecvHandler env.pool env.stack link.sock
    { link with
      sock := r.2
      mode := if r.1 = .dropLink then .dropped else .active
      reported := false }

/-- `nos_ipc_passive_handler`: `nos_ipc_recv_handler`, which registers the socket again, edge
triggered, when it takes a `HELLO` and finds a connection for it. Registering raises an edge if
the socket is readable or writable. -/
def nosIpcPassiveHandler (link : Link) (env : HandlerEnv) : Link :=
  match nosIpcRecvHandler env.pool env.stack link.sock with
  | (.dropLink, sock) => { link with sock := sock, mode := .dropped, reported := false }
  | (.hello _, sock) =>
    if env.connFound then
      { sock := sock
        mode := if env.added then .active else .dropped
        edge := !sock.queue.isEmpty || sock.closed || env.writable
        reported := false }
    else { link with sock := sock, reported := false }
  | (_, sock) => { link with sock := sock, reported := false }

def step (link : Link) : LinkAction → Option Link
  | .arrive datagram =>
    if link.mode = .dropped ∨ link.sock.closed then none
    else some { link with
      sock := { link.sock with queue := link.sock.queue ++ [datagram] }
      edge := true }
  | .peerClose => some { link with sock := { link.sock with closed := true }, edge := true }
  | .becomeWritable => some { link with edge := true }
  | .epollWait =>
    if link.reported then none
    else
      match link.mode with
      | .dropped => none
      | .active => if link.edge then some { link with edge := false, reported := true } else none
      | .passive =>
        if link.sock.queue ≠ [] ∨ link.sock.closed then some { link with reported := true }
        else none
  | .handle env =>
    if link.reported = false then none
    else
      match link.mode with
      | .dropped => some { link with reported := false }
      | .active => some (link.nosIpcEventHandler env)
      | .passive => some (link.nosIpcPassiveHandler env)
  | .sendError => some { link with mode := .dropped }

/-- A link after `connect` or after `accept`, both with an empty queue. -/
def fresh (mode : LinkMode) : Link := ⟨⟨[], false⟩, mode, mode = .active, false⟩

/-- When the loop has handled all events of an edge-triggered link and no edge is pending, nothing
is left to read. -/
def Drained (link : Link) : Prop :=
  link.mode = .active → link.reported = false → link.edge = false → link.sock.queue = []

/-- A call of the handler meets at most one datagram, or a pending edge will call it again, or it
drops the link. -/
def TakesAll (link : Link) : LinkAction → Prop
  | .handle env => link.mode = .active →
    link.sock.queue.length ≤ 1 ∨ link.edge = true ∨ env.sendFails = true ∨
      DropsLink env.stack link.sock
  | _ => True

variable {link link' : Link} {env : HandlerEnv} {action : LinkAction}

theorem drained_nosIpcEventHandler :
    (link.nosIpcEventHandler env).Drained ↔
      link.sock.queue.length ≤ 1 ∨ link.edge = true ∨ env.sendFails = true ∨
        DropsLink env.stack link.sock := by
  unfold nosIpcEventHandler
  by_cases hsend : env.sendFails = true
  · simp [hsend, Drained]
  · by_cases hdrop : DropsLink env.stack link.sock
    · simp [hsend, hdrop, Drained, outcome_eq_dropLink_iff.mpr hdrop]
    · have hkeep : (nosIpcRecvHandler env.pool env.stack link.sock).1 ≠ .dropLink :=
        mt outcome_eq_dropLink_iff.mp hdrop
      have htail : link.sock.queue.tail = [] ↔ link.sock.queue.length ≤ 1 := by
        rw [← List.length_eq_zero_iff, List.length_tail]
        omega
      cases hedge : link.edge <;>
        simp [hsend, hdrop, Drained, hkeep, queue_nosIpcRecvHandler hdrop, htail]

theorem drained_nosIpcPassiveHandler (h : link.mode = .passive) :
    (link.nosIpcPassiveHandler env).Drained := by
  unfold nosIpcPassiveHandler Drained
  split
  · simp
  · split
    · intro _ _ hedge
      simp only [Bool.or_eq_false_iff, Bool.not_eq_false'] at hedge
      exact List.isEmpty_iff.mp hedge.1.1
    · simp [h]
  · simp [h]

theorem drained_step_iff (hs : link.step action = some link') :
    link'.Drained ↔ link.TakesAll action := by
  cases action with
  | arrive datagram =>
    simp only [step] at hs
    split at hs
    · cases hs
    · cases hs
      simp [Drained, TakesAll]
  | peerClose =>
    cases hs
    simp [Drained, TakesAll]
  | becomeWritable =>
    cases hs
    simp [Drained, TakesAll]
  | epollWait =>
    simp only [step] at hs
    split at hs
    · cases hs
    · split at hs
      · cases hs
      · split at hs
        · cases hs
          simp [Drained, TakesAll]
        · cases hs
      · split at hs
        · cases hs
          simp [Drained, TakesAll]
        · cases hs
  | handle env =>
    simp only [step] at hs
    split at hs
    · cases hs
    · split at hs <;> rename_i hmode <;> cases hs
      · simp [Drained, TakesAll, hmode]
      · simp [TakesAll, hmode, drained_nosIpcEventHandler]
      · simp [TakesAll, hmode, drained_nosIpcPassiveHandler hmode]
  | sendError =>
    cases hs
    simp [Drained, TakesAll]

/-- Along a run, every state is drained exactly if every call of the handler takes all there is. -/
theorem always_drained_iff (mode : LinkMode) (actions : List LinkAction) :
    Always step Drained (fresh mode) actions ↔ Guarded step TakesAll (fresh mode) actions :=
  always_iff_guarded (fun _ h => h) (fun _ _ _ _ _ h => h)
    (fun _ _ _ _ hs => drained_step_iff hs) (fun _ _ _ => rfl)

/-- Two messages of a header each arrive before the loop gets to wait, and there is a chunk for
the one that the handler takes. -/
theorem not_drained_after_two_arrivals :
    ¬ Always step Drained (fresh .active)
      [.arrive ([0x4F, 0x4E] ++ List.replicate 26 0), .arrive ([0x4F, 0x4E] ++ List.replicate 26 0),
        .epollWait,
        .handle
          ⟨NosBufferPool.nosBufferInitPool [] [(64, 1)], [], false, false, false, false⟩] := by
  intro h
  have hlast := h.last rfl
  exact absurd (hlast rfl rfl rfl) (by decide)

end Link

end GeminiNOS

import GeminiNOS.Messaging.Balance
import GeminiNOS.Messaging.RefCounted

/-! # The code of the components

The callbacks of the components, and the commands that send messages, allocate a buffer, send it and
release it. Model 4 replies without the release. What the threads of a node still hold when they
have done their work are such replies, whatever the order of their steps.
-/

namespace GeminiNOS

open Foundations Prog

/-- The components of the repository. -/
inductive ShippedComponent where
  | model1
  | model2
  | model3
  | model4
  | model5
  | ping
  | pong
  | remotePing
  | remotePong
  deriving DecidableEq, Repr

/-- What a thread does: the next message of a queue, for the provider of its service if there is
one, the timer of model 1, a command that sends, an event of a connection, of the socket for
datagrams or the end of a queue. -/
inductive ThreadWork (T C : Type) where
  | message (t : T) (comp : Option ShippedComponent)
  | heartbeat
  | command
  | event (c : C)
  | passive
  | deinit (t : T)

namespace NodeM

variable {B T C Q : Type} (isShm : B → Bool)

def sendAndRelease : Option B → NodeM B T C Q Unit
  | none => pure ()
  | some buf => do
    sendMsg isShm buf
    nosBufferRelease isShm .code buf

def sendNew : NodeM B T C Q Unit := do
  let chunk ← nosBufferAlloc
  sendAndRelease isShm chunk

/-- A buffer in shared memory, for a message that fits a block of it. -/
def allocSmall (totalSize : ℕ) : NodeM B T C Q (Option B) :=
  if totalSize ≤ 4096 then nosShmBufferAlloc totalSize else pure none

/-- A buffer of the pool where there is none in shared memory. -/
def orPool : Option B → NodeM B T C Q (Option B)
  | none => nosBufferAlloc
  | some buf => pure (some buf)

/-- A message with a payload, in shared memory if it fits and there is room. -/
def sendPayload : NodeM B T C Q Unit := do
  let totalSize ← ask .size
  let block ← allocSmall totalSize
  let chunk ← orPool block
  sendAndRelease isShm chunk

/-! The flags are what the callbacks find in the message. -/

/-- `heartbeat_callback` of model 1 -/
def Model1.heartbeatCallback : NodeM B T C Q Unit := sendNew isShm

/-- `comp_on_msg` of model 1 -/
def Model1.compOnMsg : NodeM B T C Q Unit := do
  let request ← askFlag
  if request then sendNew isShm else pure ()

/-- `comp_on_msg` of model 4. Its reply is not released. -/
def Model4.compOnMsg : NodeM B T C Q Unit := do
  let request ← askFlag
  if request then do
    let chunk ← nosBufferAlloc
    match chunk with
    | none => pure ()
    | some buf => sendMsg isShm buf
  else pure ()

/-- `send_ping` of ping -/
def Ping.sendPing : NodeM B T C Q Unit := sendNew isShm

/-- `comp_on_msg` of ping -/
def Ping.compOnMsg : NodeM B T C Q Unit := do
  let startTest ← askFlag
  if startTest then Ping.sendPing isShm
  else do
    let again ← askFlag
    if again then Ping.sendPing isShm else pure ()

/-- `comp_on_msg` of pong -/
def Pong.compOnMsg : NodeM B T C Q Unit := do
  let ping ← askFlag
  if ping then sendNew isShm else pure ()

/-- `send_ping` of remote ping -/
def RemotePing.sendPing : NodeM B T C Q Unit := sendPayload isShm

/-- `comp_on_msg` of remote ping -/
def RemotePing.compOnMsg : NodeM B T C Q Unit := do
  let startTest ← askFlag
  if startTest then RemotePing.sendPing isShm
  else do
    let again ← askFlag
    if again then RemotePing.sendPing isShm else pure ()

/-- `comp_on_msg` of remote pong -/
def RemotePong.compOnMsg : NodeM B T C Q Unit := do
  let ping ← askFlag
  if ping then sendPayload isShm else pure ()

/-- `comp_on_msg` of a component. The other models do not send. -/
def compOnMsg : ShippedComponent → NodeM B T C Q Unit
  | .model1 => Model1.compOnMsg isShm
  | .model4 => Model4.compOnMsg isShm
  | .ping => Ping.compOnMsg isShm
  | .pong => Pong.compOnMsg isShm
  | .remotePing => RemotePing.compOnMsg isShm
  | .remotePong => RemotePong.compOnMsg isShm
  | .model2 | .model3 | .model5 => pure ()

/-- `do_log` with `spam`, `do_perf_start` and `do_perf_remote_start` -/
def sendCommand : NodeM B T C Q Unit := sendNew isShm

/-- A turn of the loop in `process_thread_messages`. -/
def processThreadMessage (t : T) (comp : Option ShippedComponent) : NodeM B T C Q Unit := do
  lock (.thread t)
  let empty ← isEmpty (.thread t)
  if empty then unlock (.thread t)
  else do
    let buf ← first (.thread t)
    advance (.thread t)
    unlock (.thread t)
    comp.elim (pure ()) (compOnMsg isShm)
    nosBufferRelease isShm .code buf

def work : ThreadWork T C → NodeM B T C Q Unit
  | .message t comp => processThreadMessage isShm t comp
  | .heartbeat => Model1.heartbeatCallback isShm
  | .command => sendCommand isShm
  | .event c => do
    nosIpcProcessTx isShm c
    nosIpcRecvHandler isShm
  | .passive => nosIpcRecvHandler isShm
  | .deinit t => nosSchedulerDeinitThread isShm t

end NodeM

namespace Holdings

variable {B T C : Type} {g g₁ g₂ : Holdings B T C} {m n : ℕ}

/-- A call that has ended with no more than so many references that it has not given up. -/
structure Keeping (n : ℕ) (g g' : Holdings B T C) : Prop where
  idle : g'.Idle
  held : ∃ kept : Multiset B, kept.card ≤ n ∧ g'.held = kept + g.held

theorem Keeping.trans (h : Keeping m g g₁) (h' : Keeping n g₁ g₂) : Keeping (m + n) g g₂ := by
  obtain ⟨kept, hcard, hheld⟩ := h.held
  obtain ⟨kept', hcard', hheld'⟩ := h'.held
  refine ⟨h'.idle, kept' + kept, ?_, ?_⟩
  · rw [Multiset.card_add]
    omega
  · rw [hheld', hheld, add_assoc]

end Holdings

namespace NodeM

variable {B T C Q : Type} [DecidableEq B] (isShm : B → Bool) {g : Holdings B T C}

end NodeM

namespace NodeState

variable {A B T C Q : Type} [DecidableEq B] [Fintype A] [Fintype T] [Fintype C] [Fintype Q]
  {s : NodeState A B T C Q} {gs : A → Holdings B T C} {isShm : B → Bool}

end NodeState

namespace Node

variable {A B T C Q : Type} [DecidableEq A] [DecidableEq B] [DecidableEq T] [DecidableEq C]
  [DecidableEq Q]

variable [Fintype A] [Fintype T] [Fintype C] [Fintype Q]

end Node

end GeminiNOS

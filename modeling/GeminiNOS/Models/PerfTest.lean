import GeminiNOS.Foundations.Run
import GeminiNOS.Ipc.Message
import Mathlib.Data.List.Perm.Basic

/-! # The performance test

A ping component that is told to start sends a ping, and the next one with every pong
that comes back, until it has counted as many as it was told to. The pong component
answers each ping. Messages are on their way in any order, and can get lost.
-/

namespace GeminiNOS

open Foundations

/-- `ping_ctx_t` and `rping_ctx_t`, without the start time. -/
structure PingCtx where
  targetCount : ℕ
  currentCount : ℕ
  payloadSize : ℕ

/-- A message: its code, the length in its header, and the words behind the header. -/
structure PerfMsg where
  msgCode : ℕ
  payloadLen : ℕ
  words : List ℕ
  deriving DecidableEq

/-- What makes the two ping components differ: how often they ping without an argument, and
whether they take a size for their messages. -/
structure PerfKind where
  defaultCount : ℕ
  sized : Bool

/-- `ping.c` and `pong.c` -/
def localPerf : PerfKind := ⟨100000, false⟩

/-- `remote_ping.c` and `remote_pong.c` -/
def remotePerf : PerfKind := ⟨10000, true⟩

/-- What a ping component does with a message. -/
inductive PingReply where
  | ignore
  | ping
  | complete
  deriving DecidableEq

/-- The words that a start reads of its payload: a count, and a size. -/
def startArgs (kind : PerfKind) (msg : PerfMsg) : Option (ℕ × ℕ) :=
  (if 4 ≤ msg.payloadLen then msg.words[0]? else some kind.defaultCount).bind fun count =>
    (if kind.sized ∧ 8 ≤ msg.payloadLen then msg.words[1]? else some 0).map fun size =>
      (u32 count, u32 size)

/-- `comp_on_msg` of a ping component. Words that are not there are undefined. -/
def pingOnMsg (kind : PerfKind) (ctx : PingCtx) (msg : PerfMsg) : Option (PingCtx × PingReply) :=
  if msg.msgCode = 3001 then
    (startArgs kind msg).map fun args => (⟨args.1, 0, args.2⟩, .ping)
  else if msg.msgCode = 2002 then
    let ctx := { ctx with currentCount := u32 (ctx.currentCount + 1) }
    some (ctx, if ctx.currentCount < ctx.targetCount then .ping else .complete)
  else some (ctx, .ignore)

/-- `send_ping` -/
def pingMsg (ctx : PingCtx) : PerfMsg := ⟨2001, ctx.payloadSize, []⟩

/-- `comp_on_msg` of a pong component. -/
def pongOnMsg (kind : PerfKind) (msg : PerfMsg) : Option PerfMsg :=
  if msg.msgCode = 2001 then some ⟨2002, if kind.sized then msg.payloadLen else 0, []⟩ else none

/-- The message and its header have a size that a word can hold. A larger message is written
behind the end of its buffer. -/
def PerfMsg.Fits (msg : PerfMsg) : Prop := sizeofNosServiceMsg + msg.payloadLen < 2 ^ 32

instance (msg : PerfMsg) : Decidable msg.Fits := Nat.decLt _ _

def PerfMsg.isBall (msg : PerfMsg) : Bool := msg.msgCode = 2001 ∨ msg.msgCode = 2002

/-- A start is sent from outside; a component handles a message, and what it sends in turn is
sent or not, for want of a buffer or of a receiver; or a message gets lost. -/
inductive PerfAction where
  | start (payloadLen : ℕ) (words : List ℕ)
  | ping (msg : PerfMsg) (sent : Bool)
  | pong (msg : PerfMsg) (sent : Bool)
  | dropPing (msg : PerfMsg)
  | dropPong (msg : PerfMsg)

/-- The context of the ping component, and the messages on their way to either component. Beside
them the starts handled, the pings sent, the pings and pongs lost, and the completions reported. -/
structure PerfTest where
  ctx : PingCtx
  toPing : List PerfMsg
  toPong : List PerfMsg
  starts : ℕ
  pings : ℕ
  lost : ℕ
  completed : ℕ

namespace PerfTest

def sendPing (s : PerfTest) (sent : Bool) : Option PerfTest :=
  if sent then
    if (pingMsg s.ctx).Fits then
      some { s with toPong := s.toPong ++ [pingMsg s.ctx], pings := s.pings + 1 }
    else none
  else some { s with lost := s.lost + 1 }

def sendPong (s : PerfTest) (msg : PerfMsg) (sent : Bool) : Option PerfTest :=
  if sent then
    if msg.Fits then some { s with toPing := s.toPing ++ [msg] } else none
  else some { s with lost := s.lost + 1 }

def reply (s : PerfTest) (sent : Bool) : PingReply → Option PerfTest
  | .ignore => some s
  | .ping => s.sendPing sent
  | .complete => some { s with completed := s.completed + 1 }

def step (kind : PerfKind) (s : PerfTest) : PerfAction → Option PerfTest
  | .start payloadLen words =>
    some { s with toPing := s.toPing ++ [⟨3001, payloadLen, words⟩] }
  | .ping msg sent =>
    if msg ∈ s.toPing then
      (pingOnMsg kind s.ctx msg).bind fun r =>
        reply { s with
          ctx := r.1
          toPing := s.toPing.erase msg
          starts := if msg.msgCode = 3001 then s.starts + 1 else s.starts } sent r.2
    else none
  | .pong msg sent =>
    if msg ∈ s.toPong then
      (pongOnMsg kind msg).elim (some { s with toPong := s.toPong.erase msg }) fun pong =>
        sendPong { s with toPong := s.toPong.erase msg } pong sent
    else none
  | .dropPing msg =>
    if msg ∈ s.toPing then
      some { s with
        toPing := s.toPing.erase msg
        lost := if msg.isBall then s.lost + 1 else s.lost }
    else none
  | .dropPong msg =>
    if msg ∈ s.toPong then
      some { s with
        toPong := s.toPong.erase msg
        lost := if msg.isBall then s.lost + 1 else s.lost }
    else none

/-- After `comp_init`, before the first message. -/
def init : PerfTest := ⟨⟨0, 0, 0⟩, [], [], 0, 0, 0, 0⟩

def balls (s : PerfTest) : ℕ := s.toPing.countP PerfMsg.isBall + s.toPong.countP PerfMsg.isBall

/-- Every start that was handled has its ping or pong on the way, or lost, or was reported as
complete. Pings go one way and pongs the other. -/
structure Conserved (s : PerfTest) : Prop where
  starts : s.starts = s.balls + s.lost + s.completed
  toPing : ∀ msg ∈ s.toPing, msg.msgCode ≠ 2001
  toPong : ∀ msg ∈ s.toPong, msg.msgCode = 2001

variable {kind : PerfKind} {s s' : PerfTest} {msg pong : PerfMsg} {a : PerfAction}
  {actions : List PerfAction} {ctx : PingCtx} {sent : Bool}

theorem countP_erase_isBall {l : List PerfMsg} (h : msg ∈ l) :
    (l.erase msg).countP PerfMsg.isBall + (if msg.isBall then 1 else 0) =
      l.countP PerfMsg.isBall := by
  rw [(List.perm_cons_erase h).countP_eq PerfMsg.isBall, List.countP_cons]

theorem balls_toPing_append (msg : PerfMsg) : balls { s with toPing := s.toPing ++ [msg] } =
    s.balls + if msg.isBall then 1 else 0 := by
  simp only [balls, List.countP_append, List.countP_singleton]
  omega

theorem balls_toPong_append (msg : PerfMsg) : balls { s with toPong := s.toPong ++ [msg] } =
    s.balls + if msg.isBall then 1 else 0 := by
  simp only [balls, List.countP_append, List.countP_singleton]
  omega

theorem balls_toPing_erase (h : msg ∈ s.toPing) :
    balls { s with toPing := s.toPing.erase msg } + (if msg.isBall then 1 else 0) = s.balls := by
  have hcount := countP_erase_isBall h
  simp only [balls]
  omega

theorem balls_toPong_erase (h : msg ∈ s.toPong) :
    balls { s with toPong := s.toPong.erase msg } + (if msg.isBall then 1 else 0) = s.balls := by
  have hcount := countP_erase_isBall h
  simp only [balls]
  omega

/-- A state that is conserved once it has one more ball. -/
structure Owes (s : PerfTest) : Prop where
  starts : s.starts = s.balls + 1 + s.lost + s.completed
  toPing : ∀ msg ∈ s.toPing, msg.msgCode ≠ 2001
  toPong : ∀ msg ∈ s.toPong, msg.msgCode = 2001

theorem Owes.sendPing (h : s.Owes) (hs : s.sendPing sent = some s') : s'.Conserved := by
  obtain ⟨hstarts, hping, hpong⟩ := h
  unfold PerfTest.sendPing at hs
  split at hs
  · split at hs <;> cases hs
    constructor
    · have hballs : _ = s.balls + 1 := balls_toPong_append (s := s) (pingMsg s.ctx)
      simp only [balls] at hballs hstarts ⊢
      omega
    · exact hping
    · intro m hm
      rcases List.mem_append.mp hm with hm | hm
      · exact hpong m hm
      · obtain rfl := List.mem_singleton.mp hm
        rfl
  · cases hs
    constructor
    · simp only [balls] at hstarts ⊢
      omega
    · exact hping
    · exact hpong

theorem Owes.sendPong (h : s.Owes) (hcode : pong.msgCode = 2002)
    (hs : s.sendPong pong sent = some s') : s'.Conserved := by
  obtain ⟨hstarts, hping, hpong⟩ := h
  unfold PerfTest.sendPong at hs
  split at hs
  · split at hs <;> cases hs
    have hball : pong.isBall = true := by simp [PerfMsg.isBall, hcode]
    constructor
    · have hballs := balls_toPing_append (s := s) pong
      rw [hball] at hballs
      simp only [balls, if_true] at hballs hstarts ⊢
      omega
    · intro m hm
      rcases List.mem_append.mp hm with hm | hm
      · exact hping m hm
      · obtain rfl := List.mem_singleton.mp hm
        simp [hcode]
    · exact hpong
  · cases hs
    constructor
    · simp only [balls] at hstarts ⊢
      omega
    · exact hping
    · exact hpong

theorem Conserved.reply (h : s.Conserved) (hmsg : msg ∈ s.toPing) {r : PingCtx × PingReply}
    (hp : pingOnMsg kind s.ctx msg = some r)
    (hs : PerfTest.reply { s with
      ctx := r.1
      toPing := s.toPing.erase msg
      starts := if msg.msgCode = 3001 then s.starts + 1 else s.starts } sent r.2 = some s') :
    s'.Conserved := by
  obtain ⟨hstarts, hping, hpong⟩ := h
  have hballs := balls_toPing_erase hmsg
  have hping' : ∀ m ∈ s.toPing.erase msg, m.msgCode ≠ 2001 := fun m hm =>
    hping m (List.mem_of_mem_erase hm)
  unfold pingOnMsg at hp
  split at hp
  · -- a start adds a ping
    rename_i hcode
    obtain ⟨args, -, rfl⟩ := Option.map_eq_some_iff.mp hp
    have hball : msg.isBall = false := by simp [PerfMsg.isBall, hcode]
    rw [hball] at hballs
    have hs : PerfTest.sendPing _ sent = some s' := hs
    apply Owes.sendPing _ hs
    constructor
    · simp only [hcode, if_true, balls, Bool.false_eq_true, if_false] at hballs hstarts ⊢
      omega
    · exact hping'
    · exact hpong
  · rename_i hcode
    split at hp
    · -- a pong comes back
      rename_i hcode'
      have hball : msg.isBall = true := by simp [PerfMsg.isBall, hcode']
      rw [hball] at hballs
      cases hp
      split at hs
      · have hs : PerfTest.sendPing _ sent = some s' := hs
        apply Owes.sendPing _ hs
        constructor
        · simp only [balls, if_true] at hballs hstarts ⊢
          omega
        · exact hping'
        · exact hpong
      · cases hs
        constructor
        · simp only [balls, if_true] at hballs hstarts ⊢
          omega
        · exact hping'
        · exact hpong
    · rename_i hcode'
      have hball : msg.isBall = false := by simp [PerfMsg.isBall, hcode', hping msg hmsg]
      rw [hball] at hballs
      cases hp
      cases hs
      constructor
      · simp only [if_neg hcode, balls, Bool.false_eq_true, if_false] at hballs hstarts ⊢
        omega
      · exact hping'
      · exact hpong

theorem Conserved.step (h : s.Conserved) (hs : s.step kind a = some s') : s'.Conserved := by
  obtain ⟨hstarts, hping, hpong⟩ := h
  cases a with
  | start payloadLen words =>
    cases hs
    constructor
    · have hballs := balls_toPing_append (s := s) ⟨3001, payloadLen, words⟩
      simp only [PerfMsg.isBall, Nat.reduceEqDiff, or_self, decide_false, Bool.false_eq_true,
        if_false] at hballs
      simp only [balls] at hballs hstarts ⊢
      omega
    · intro m hm
      rcases List.mem_append.mp hm with hm | hm
      · exact hping m hm
      · obtain rfl := List.mem_singleton.mp hm
        simp
    · exact hpong
  | ping msg sent =>
    simp only [PerfTest.step] at hs
    split at hs
    · obtain ⟨r, hp, hs⟩ := Option.bind_eq_some_iff.mp hs
      exact Conserved.reply ⟨hstarts, hping, hpong⟩ ‹_› hp hs
    · cases hs
  | pong msg sent =>
    simp only [PerfTest.step] at hs
    split at hs
    · rename_i hmsg
      have hcode := hpong msg hmsg
      have hballs := balls_toPong_erase hmsg
      have hball : msg.isBall = true := by simp [PerfMsg.isBall, hcode]
      rw [pongOnMsg, if_pos hcode, Option.elim_some] at hs
      apply Owes.sendPong _ rfl hs
      constructor
      · rw [hball] at hballs
        simp only [balls, if_true] at hballs hstarts ⊢
        omega
      · exact hping
      · exact fun m hm => hpong m (List.mem_of_mem_erase hm)
    · cases hs
  | dropPing msg =>
    simp only [PerfTest.step] at hs
    split at hs <;> cases hs
    rename_i hmsg
    have hballs := balls_toPing_erase hmsg
    refine ⟨?_, fun m hm => hping m (List.mem_of_mem_erase hm), hpong⟩
    simp only [balls] at hballs hstarts ⊢
    split
    · simp_all
      omega
    · simp_all
  | dropPong msg =>
    simp only [PerfTest.step] at hs
    split at hs <;> cases hs
    rename_i hmsg
    have hballs := balls_toPong_erase hmsg
    refine ⟨?_, hping, fun m hm => hpong m (List.mem_of_mem_erase hm)⟩
    simp only [balls] at hballs hstarts ⊢
    split
    · simp_all
      omega
    · simp_all

/-- In every run, whatever is sent, lost and handled in whatever order, each start that was handled
is one ping or pong on the way, one lost, or one completion. -/
theorem always_conserved (kind : PerfKind) (actions : List PerfAction) :
    Run.Always (step kind) Conserved init actions :=
  Run.always_of_invariant (fun _ _ _ h hs => h.step hs) (fun _ h => h)
    ⟨rfl, by simp [init], by simp [init]⟩

end PerfTest

/-- A component handles a message, and what it sends is sent. -/
def PerfAction.Plays : PerfAction → Prop
  | ping _ sent | pong _ sent => sent = true
  | start _ _ | dropPing _ | dropPong _ => False

namespace PerfTest

def Idle (s : PerfTest) : Prop := s.toPing = [] ∧ s.toPong = []

def rounds (target : ℕ) : ℕ := max 1 target

/-- Where a test is, a number of steps after it was sent to a state. -/
inductive Session (kind : PerfKind) (s : PerfTest) (msg : PerfMsg) (target size : ℕ) :
    ℕ → PerfTest → Prop where
  | requested : Session kind s msg target size 0 { s with toPing := [msg], toPong := [] }
  | pinged (t : PerfTest) (k : ℕ) : k < rounds target → t.ctx = ⟨target, k, size⟩ →
      t.toPing = [] → t.toPong = [⟨2001, size, []⟩] → t.completed = s.completed →
      t.pings = s.pings + k + 1 → Session kind s msg target size (2 * k + 1) t
  | ponged (t : PerfTest) (k : ℕ) : k < rounds target → t.ctx = ⟨target, k, size⟩ →
      t.toPing = [⟨2002, if kind.sized then size else 0, []⟩] → t.toPong = [] →
      t.completed = s.completed →
      t.pings = s.pings + k + 1 → Session kind s msg target size (2 * k + 2) t
  | completed (t : PerfTest) : t.ctx = ⟨target, rounds target, size⟩ →
      t.toPing = [] → t.toPong = [] → t.completed = s.completed + 1 →
      t.pings = s.pings + rounds target →
      Session kind s msg target size (2 * rounds target + 1) t

variable {n target size : ℕ} {s₀ : PerfTest}

theorem startArgs_lt (h : startArgs kind msg = some (target, size)) : target < 2 ^ 32 := by
  obtain ⟨count, -, h⟩ := Option.bind_eq_some_iff.mp h
  obtain ⟨_, -, h⟩ := Option.map_eq_some_iff.mp h
  cases h
  exact Nat.mod_lt _ (by decide)

theorem Session.pinging {t : PerfTest} {k : ℕ} (hk : k < rounds target)
    (hctx : t.ctx = ⟨target, k, size⟩) (hping : t.toPing = []) (hpong : t.toPong = [])
    (hcompleted : t.completed = s₀.completed) (hpings : t.pings = s₀.pings + k)
    (hs : t.sendPing true = some s') : Session kind s₀ msg target size (2 * k + 1) s' := by
  simp only [PerfTest.sendPing, if_true] at hs
  split at hs <;> cases hs
  apply Session.pinged _ k hk
  · exact hctx
  · exact hping
  · simp [hpong, pingMsg, hctx]
  · exact hcompleted
  · simp only [hpings]

theorem Session.step (hcode : msg.msgCode = 3001)
    (hargs : startArgs kind msg = some (target, size))
    (h : Session kind s₀ msg target size n s) (hplays : a.Plays)
    (hs : s.step kind a = some s') : Session kind s₀ msg target size (n + 1) s' := by
  have htarget := startArgs_lt hargs
  cases a with
  | start payloadLen words => cases hplays
  | dropPing m => cases hplays
  | dropPong m => cases hplays
  | ping m sent =>
    obtain rfl : sent = true := hplays
    simp only [PerfTest.step] at hs
    split at hs
    · rename_i hm
      obtain ⟨r, hp, hs⟩ := Option.bind_eq_some_iff.mp hs
      cases h with
      | requested =>
        obtain rfl := List.mem_singleton.mp hm
        rw [pingOnMsg, if_pos hcode, hargs] at hp
        cases hp
        have hk : 0 < rounds target := Nat.lt_of_lt_of_le Nat.zero_lt_one (Nat.le_max_left 1 _)
        have hs : PerfTest.sendPing _ true = some s' := hs
        apply Session.pinging hk _ _ _ _ _ hs
        · rfl
        · simp
        · rfl
        · rfl
        · rfl
      | pinged _ k hk hctx hping => simp [hping] at hm
      | ponged _ k hk hctx hping hpong hcompleted hpings =>
        rw [hping] at hm hs
        obtain rfl := List.mem_singleton.mp hm
        have hmod : u32 (k + 1) = k + 1 := Nat.mod_eq_of_lt (by simp only [rounds] at hk; omega)
        simp only [pingOnMsg, hctx, hmod] at hp
        cases hp
        by_cases hlt : k + 1 < target
        · simp only [if_pos hlt] at hs
          have hk' : k + 1 < rounds target := by simp only [rounds]; omega
          have hs : PerfTest.sendPing _ true = some s' := hs
          apply Session.pinging hk' _ _ _ _ _ hs
          · rfl
          · simp
          · exact hpong
          · exact hcompleted
          · exact hpings
        · simp only [if_neg hlt] at hs
          cases hs
          have hk' : k + 1 = rounds target := by simp only [rounds] at hk ⊢; omega
          have hn : 2 * k + 2 + 1 = 2 * rounds target + 1 := by omega
          rw [hn]
          apply Session.completed
          · rw [hk']
          · simp
          · exact hpong
          · simp only [hcompleted]
          · simp only [hpings]
            omega
      | completed _ hctx hping => simp [hping] at hm
    · cases hs
  | pong m sent =>
    obtain rfl : sent = true := hplays
    simp only [PerfTest.step] at hs
    split at hs
    · rename_i hm
      cases h with
      | requested => simp at hm
      | pinged _ k hk hctx hping hpong hcompleted hpings =>
        rw [hpong] at hm hs
        obtain rfl := List.mem_singleton.mp hm
        simp only [pongOnMsg, if_true, Option.elim_some, PerfTest.sendPong] at hs
        obtain ⟨-, hs⟩ := Option.ite_none_right_eq_some.mp hs
        cases hs
        apply Session.ponged _ k hk
        · exact hctx
        · simp [hping]
        · simp
        · exact hcompleted
        · exact hpings
      | ponged _ k hk hctx hping hpong => simp [hpong] at hm
      | completed _ hctx hping hpong => simp [hpong] at hm
    · cases hs

theorem Session.exec (hcode : msg.msgCode = 3001)
    (hargs : startArgs kind msg = some (target, size))
    (h : Session kind s₀ msg target size n s) (hplays : ∀ a ∈ actions, a.Plays)
    (hs : Run.exec (PerfTest.step kind) s actions = some s') :
    Session kind s₀ msg target size (n + actions.length) s' := by
  induction actions generalizing n s with
  | nil =>
    cases hs
    exact h
  | cons a actions ih =>
    obtain ⟨t, ht, hs⟩ := Option.bind_eq_some_iff.mp hs
    have hstep := h.step hcode hargs (hplays a List.mem_cons_self) ht
    have hn : n + (a :: actions).length = n + 1 + actions.length := by
      simp only [List.length_cons]
      omega
    rw [hn]
    exact ih hstep (fun b hb => hplays b (List.mem_cons_of_mem a hb)) hs

/-- Unless it is complete, a test can go on. -/
theorem Session.progress (hcode : msg.msgCode = 3001)
    (hargs : startArgs kind msg = some (target, size)) (hfit : sizeofNosServiceMsg + size < 2 ^ 32)
    (h : Session kind s₀ msg target size n s) (hn : n < 2 * rounds target + 1) :
    ∃ a : PerfAction, a.Plays ∧ (s.step kind a).isSome := by
  have hping : PerfMsg.Fits ⟨2001, size, []⟩ := hfit
  cases h with
  | requested =>
    refine ⟨.ping msg true, rfl, ?_⟩
    simp [PerfTest.step, pingOnMsg, hcode, hargs, PerfTest.reply, PerfTest.sendPing, pingMsg, hping]
  | pinged _ k hk hctx hnone hone =>
    refine ⟨.pong ⟨2001, size, []⟩ true, rfl, ?_⟩
    have hpong : PerfMsg.Fits ⟨2002, if kind.sized then size else 0, []⟩ := by
      simp only [PerfMsg.Fits]
      split <;> omega
    simp [PerfTest.step, hone, pongOnMsg, PerfTest.sendPong, hpong]
  | ponged _ k hk hctx hone =>
    refine ⟨.ping ⟨2002, if kind.sized then size else 0, []⟩ true, rfl, ?_⟩
    simp only [PerfTest.step, hone, List.mem_singleton, if_true, pingOnMsg, Nat.reduceEqDiff,
      if_false, Option.bind_some, hctx]
    by_cases hlt : u32 (k + 1) < target
    · have hping : (pingMsg ⟨target, u32 (k + 1), size⟩).Fits := hping
      simp only [if_pos hlt, PerfTest.reply, PerfTest.sendPing, if_true, if_pos hping,
        Option.isSome_some]
    · simp only [if_neg hlt, PerfTest.reply, Option.isSome_some]
  | completed => omega

/-- A test that is started while nothing is on its way, and of which nothing gets lost, takes one
step for the start and two for every round. It goes on until then, whatever runs first, and is
then complete, with one ping for each round. -/
theorem session {payloadLen : ℕ} {words : List ℕ} (hidle : s.Idle)
    (hargs : startArgs kind ⟨3001, payloadLen, words⟩ = some (target, size))
    (hfit : sizeofNosServiceMsg + size < 2 ^ 32) (hplays : ∀ a ∈ actions, a.Plays)
    (hs : Run.exec (PerfTest.step kind) s (.start payloadLen words :: actions) = some s') :
    actions.length ≤ 2 * rounds target + 1 ∧
    (actions.length < 2 * rounds target + 1 →
      s'.completed = s.completed ∧ ∃ a : PerfAction, a.Plays ∧ (s'.step kind a).isSome) ∧
    (actions.length = 2 * rounds target + 1 →
      s'.Idle ∧ s'.completed = s.completed + 1 ∧ s'.pings = s.pings + rounds target ∧
        s'.ctx = ⟨target, rounds target, size⟩) := by
  obtain ⟨hping, hpong⟩ := hidle
  have hstart : Session kind s ⟨3001, payloadLen, words⟩ target size 0
      { s with toPing := s.toPing ++ [⟨3001, payloadLen, words⟩] } := by
    have he : { s with toPing := s.toPing ++ [⟨3001, payloadLen, words⟩] } =
        { s with toPing := [⟨3001, payloadLen, words⟩], toPong := [] } := by
      rw [hping, List.nil_append, ← hpong]
    rw [he]
    exact .requested
  have hrun := hstart.exec rfl hargs hplays hs
  rw [Nat.zero_add] at hrun
  have hprogress := hrun.progress rfl hargs hfit
  generalize actions.length = n at hrun hprogress ⊢
  cases hrun with
  | requested => exact ⟨by omega, fun hn => ⟨rfl, hprogress hn⟩, by omega⟩
  | pinged _ k hk hctx hping hpong hcompleted hpings =>
    exact ⟨by omega, fun hn => ⟨hcompleted, hprogress hn⟩, by omega⟩
  | ponged _ k hk hctx hping hpong hcompleted hpings =>
    exact ⟨by omega, fun hn => ⟨hcompleted, hprogress hn⟩, by omega⟩
  | completed _ hctx hping hpong hcompleted hpings =>
    exact ⟨by omega, by omega, fun _ => ⟨⟨hping, hpong⟩, hcompleted, hpings, hctx⟩⟩

/-- A test over two rounds that runs to its end. -/
theorem session_two_rounds :
    (Run.exec (PerfTest.step localPerf) init
      [.start 4 [2], .ping ⟨3001, 4, [2]⟩ true, .pong ⟨2001, 0, []⟩ true,
        .ping ⟨2002, 0, []⟩ true, .pong ⟨2001, 0, []⟩ true, .ping ⟨2002, 0, []⟩ true]).map
      (fun s => (s.completed, s.pings)) = some (1, 2) ∧
    ∀ s', Run.exec (PerfTest.step localPerf) init
      [.start 4 [2], .ping ⟨3001, 4, [2]⟩ true, .pong ⟨2001, 0, []⟩ true,
        .ping ⟨2002, 0, []⟩ true, .pong ⟨2001, 0, []⟩ true, .ping ⟨2002, 0, []⟩ true] =
      some s' → s'.completed = 1 := by
  refine ⟨by decide, fun s' hs => ?_⟩
  have hdone := session (s := init) ⟨rfl, rfl⟩ (by decide : _ = some (2, 0)) (by decide)
    (by simp [PerfAction.Plays]) hs
  exact (hdone.2.2 rfl).2.1

end PerfTest

end GeminiNOS

import GeminiNOS.Component.ThreadPlaces
import GeminiNOS.Scheduler.Timer

/-! # The thread of a component

A component belongs to the thread that its node definition gives it to. That thread starts its
instances, calls them with messages and fires their timers, whoever sends and whatever the command
line reloads in the meantime.
-/

namespace GeminiNOS

open Foundations

/-- A node whose threads run: where they are in `nos_scheduler_run_loop`, the instances whose start
has succeeded, the timers, and the callbacks made so far, each with its instance and its thread. -/
structure ThreadedNode where
  node : UnloadNode
  phase : ℕ → RunPhase
  active : ℕ → Bool
  timers : TimerSystem
  ran : List (ℕ × ℕ)

/-- A step of the node; a thread enters its loop, and comes to the next component that it starts; an
instance creates a timer, with itself as the argument; a timer is started by its instance, stopped
and deleted; and a thread fires the timer that is due first. -/
inductive ThreadedAction where
  | node (a : UnloadAction)
  | beginLoop (t : ℕ)
  | startNext (t : ℕ) (ret : NosStatus)
  | createTimer (x : ℕ) (timer : TimerId) (callback freeArg : Option ℕ)
  | startTimer (timer : TimerId) (now intervalMs : ℕ) (isPeriodic : Bool)
  | stopTimer (timer : TimerId)
  | deleteTimer (timer : TimerId)
  | fire (t now later : ℕ)

namespace UnloadNode

/-- `find_thread_of_component`. The management thread has no components. -/
def findThreadOfComponent (s : UnloadNode) (x : ℕ) : Option ℕ :=
  (List.range (s.nodeDef.threads.take maxWorkers).length).find? fun t => x ∈ s.components t

theorem findThreadOfComponent_mem {s : UnloadNode} {x t : ℕ}
    (h : s.findThreadOfComponent x = some t) : x ∈ s.components t := by
  simpa using List.find?_some h

/-- The call of `on_msg` that an action makes, with its thread. -/
def messageCalls (s : UnloadNode) : UnloadAction → List (ℕ × ℕ)
  | .worker t =>
    match s.worker t with
    | .call slot => (s.callee slot).toList.map fun x => (x, t)
    | _ => []
  | _ => []

end UnloadNode

namespace ThreadedNode

/-- The threads are created after `node_setup_routing`. -/
def startup (nodeDef : NosNodeDef) (loads : ℕ → ℕ → Option CompExport) : ThreadedNode where
  node := .startup nodeDef loads
  phase _ := .notRunning
  active _ := false
  timers := .init
  ran := []

def Dispatches (s : ThreadedNode) : UnloadAction → Prop
  | .worker t => s.phase t = .looping
  | _ => True

instance (s : ThreadedNode) (a : UnloadAction) : Decidable (s.Dispatches a) := by
  cases a <;> unfold Dispatches <;> infer_instance

def setPhase (s : ThreadedNode) (t : ℕ) (phase : RunPhase) : ThreadedNode :=
  { s with phase := Function.update s.phase t phase }

def startComponent (s : ThreadedNode) (t x : ℕ) (ret : NosStatus) : ThreadedNode :=
  if (s.node.comps x).hasStart ∧ s.active x = false then
    { s with
      active := Function.update s.active x (ret = .ok)
      ran := s.ran ++ [(x, t)] }
  else s

/-- A turn of the loop in `process_timers`, with a callback that does not touch timers. -/
def fireTimer (s : ThreadedNode) (t later : ℕ) (timer : NosTimer) : ThreadedNode :=
  { s with
    timers :=
      if timer.isPeriodic then
        (s.timers.popRoot t timer).rearm t (s.timers.root t) timer later
      else s.timers.popRoot t timer
    ran := s.ran ++ timer.callback.toList.map fun _ => (timer.arg, t) }

def step (s : ThreadedNode) : ThreadedAction → Option ThreadedNode
  | .node a =>
    if s.Dispatches a then
      (s.node.step a).map fun node => { s with node := node, ran := s.ran ++ s.node.messageCalls a }
    else none
  | .beginLoop t => if s.phase t = .notRunning then some (s.setPhase t (.starting 0)) else none
  | .startNext t ret =>
    match s.phase t with
    | .starting i =>
      match (s.node.components t)[i]? with
      | some x => some ((s.startComponent t x ret).setPhase t (.starting (i + 1)))
      | none => some (s.setPhase t .looping)
    | _ => none
  | .createTimer x timer callback freeArg =>
    (timerStep s.timers (.create timer callback x freeArg)).map fun timers =>
      { s with timers := timers }
  | .startTimer timer now intervalMs isPeriodic =>
    (s.timers.timers timer).bind fun t =>
      (timerStep s.timers (.start (s.node.findThreadOfComponent t.arg) timer now intervalMs
        isPeriodic)).map fun timers => { s with timers := timers }
  | .stopTimer timer =>
    (s.timers.timers timer).bind fun t =>
      (timerStep s.timers (.stop (s.node.findThreadOfComponent t.arg) timer)).map fun timers =>
        { s with timers := timers }
  | .deleteTimer timer =>
    (timerStep s.timers (.delete timer)).map fun timers => { s with timers := timers }
  | .fire t now later =>
    if s.phase t = .looping ∧ s.timers.Due t now then
      (s.timers.timers (s.timers.root t)).map (s.fireTimer t later)
    else none

def Quiet (s : ThreadedNode) : ThreadedAction → Prop
  | .node a => s.node.Quiet a
  | _ => True

variable {s s' : ThreadedNode} {nodeDef : NosNodeDef} {defs : List (CompDef × ℕ)} {t x : ℕ}

def TimerPlaced (node : UnloadNode) (defs : List (CompDef × ℕ)) (timer : NosTimer) : Prop :=
  timer.isRunning = true → ∀ t, timer.ownerThread = some t → node.Hosts defs timer.arg t

def TimersPlaced (node : UnloadNode) (defs : List (CompDef × ℕ)) (timers : TimerSystem) : Prop :=
  ∀ id timer, timers.timers id = some timer → TimerPlaced node defs timer

section Timers

variable {node : UnloadNode} {timers timers' : TimerSystem}

theorem TimersPlaced.update (h : TimersPlaced node defs timers) {id : TimerId}
    {new : Option NosTimer} (hnew : ∀ timer, new = some timer → TimerPlaced node defs timer)
    {heaps : ThreadId → NosTimerHeap} :
    TimersPlaced node defs ⟨Function.update timers.timers id new, heaps⟩ := by
  intro id' timer htimer
  simp only [Function.update_apply] at htimer
  split at htimer
  · exact hnew timer htimer
  · exact h id' timer htimer

theorem timerPlaced_of_idle {timer : NosTimer} (h : timer.isRunning = false) :
    TimerPlaced node defs timer := fun hrun => absurd (h.symm.trans hrun) Bool.false_ne_true

theorem TimersPlaced.create (h : TimersPlaced node defs timers) {id arg : ℕ}
    {callback freeArg : Option ℕ}
    (hs : timerStep timers (.create id callback arg freeArg) = some timers') :
    TimersPlaced node defs timers' := by
  simp only [timerStep, Option.ite_none_right_eq_some, Option.some.injEq] at hs
  obtain ⟨-, rfl⟩ := hs
  refine h.update ?_
  rintro timer ⟨⟩
  exact timerPlaced_of_idle rfl

theorem TimersPlaced.start (h : TimersPlaced node defs timers) (hplaced : node.Placed nodeDef defs)
    {id now intervalMs : ℕ} {isPeriodic : Bool} {timer : NosTimer}
    (htimer : timers.timers id = some timer)
    (hs : timerStep timers (.start (node.findThreadOfComponent timer.arg) id now intervalMs
      isPeriodic) = some timers') : TimersPlaced node defs timers' := by
  obtain ⟨r, hr, rfl⟩ := Option.map_eq_some_iff.mp hs
  rcases TimerSystem.nosTimerStart_some hr with rfl | ⟨t, old, ht, -, hold, -, -, rfl⟩
  · exact h
  · refine h.update ?_
    rintro new ⟨⟩ - t' ⟨⟩
    obtain rfl := Option.some.inj (htimer.symm.trans hold)
    exact hplaced.components t _ (UnloadNode.findThreadOfComponent_mem ht)

theorem TimersPlaced.stop (h : TimersPlaced node defs timers) (hm : timers.Members)
    {thread : Option ℕ} {id : ℕ} (hs : timerStep timers (.stop thread id) = some timers') :
    TimersPlaced node defs timers' := by
  obtain ⟨r, hr, rfl⟩ := Option.map_eq_some_iff.mp hs
  rcases hm.nosTimerStop_some hr with ⟨rfl, -⟩ | ⟨_, _, _, -, -, -, -, rfl⟩
  · exact h
  · refine h.update ?_
    rintro timer ⟨⟩
    exact timerPlaced_of_idle rfl

theorem TimersPlaced.delete (h : TimersPlaced node defs timers) (hm : timers.Members) {id : ℕ}
    (hs : timerStep timers (.delete id) = some timers') : TimersPlaced node defs timers' := by
  rcases hm.nosTimerDelete_some hs with ⟨rfl, -⟩ | ⟨-, -, rfl⟩ | ⟨_, _, _, -, -, -, -, rfl⟩
  · exact h
  all_goals exact h.update (by rintro timer ⟨⟩)

theorem TimersPlaced.root (h : TimersPlaced node defs timers) (hm : timers.Members)
    (hsize : 0 < (timers.heaps t).size) {timer : NosTimer}
    (htimer : timers.timers (timers.root t) = some timer) : node.Hosts defs timer.arg t := by
  obtain ⟨timer', htimer', hrun, howner⟩ := (hm.mem_iff t _).mp ⟨0, hsize, rfl⟩
  obtain rfl := Option.some.inj (htimer.symm.trans htimer')
  exact h _ timer htimer hrun t howner

theorem TimersPlaced.popRoot (h : TimersPlaced node defs timers) (t : ℕ) (timer : NosTimer) :
    TimersPlaced node defs (timers.popRoot t timer) := by
  refine h.update ?_
  rintro new ⟨⟩
  exact timerPlaced_of_idle rfl

theorem TimersPlaced.rearm (h : TimersPlaced node defs timers) {id later : ℕ} {timer : NosTimer}
    (howner : timer.ownerThread = some t) (hhosts : node.Hosts defs timer.arg t) :
    TimersPlaced node defs (timers.rearm t id timer later) := by
  refine h.update ?_
  rintro new ⟨⟩ - t' ht'
  obtain rfl := Option.some.inj (howner.symm.trans ht')
  exact hhosts

end Timers

/-- Everything that leads to a callback is on the thread of its component, and so were all
callbacks. -/
structure Sound (s : ThreadedNode) (nodeDef : NosNodeDef) (defs : List (CompDef × ℕ)) : Prop where
  inv : s.node.Inv
  placed : s.node.Placed nodeDef defs
  members : s.timers.Members
  timers : TimersPlaced s.node defs s.timers
  ran : ∀ call ∈ s.ran, s.node.Hosts defs call.1 call.2

theorem Sound.setPhase (h : s.Sound nodeDef defs) (phase : RunPhase) :
    (s.setPhase t phase).Sound nodeDef defs := { h with }

theorem Sound.setTimers (h : s.Sound nodeDef defs) {timers : TimerSystem} (hm : timers.Members)
    (hp : TimersPlaced s.node defs timers) : Sound { s with timers := timers } nodeDef defs :=
  { h with members := hm, timers := hp }

theorem Sound.append (h : s.Sound nodeDef defs) {calls : List (ℕ × ℕ)}
    (hcalls : ∀ call ∈ calls, s.node.Hosts defs call.1 call.2) :
    Sound { s with ran := s.ran ++ calls } nodeDef defs := by
  refine { h with ran := fun call hcall => ?_ }
  rcases List.mem_append.mp hcall with hold | hnew
  · exact h.ran call hold
  · exact hcalls call hnew

theorem Sound.startComponent (h : s.Sound nodeDef defs) (hx : x ∈ s.node.components t)
    (ret : NosStatus) : (s.startComponent t x ret).Sound nodeDef defs := by
  unfold ThreadedNode.startComponent
  split
  · have happend : Sound { s with ran := s.ran ++ [(x, t)] } nodeDef defs := by
      refine h.append fun call hcall => ?_
      obtain rfl := List.mem_singleton.mp hcall
      exact h.placed.components t x hx
    exact { happend with }
  · exact h

theorem Sound.fireTimer (h : s.Sound nodeDef defs) (hsize : 0 < (s.timers.heaps t).size)
    {timer : NosTimer} (htimer : s.timers.timers (s.timers.root t) = some timer) (later : ℕ) :
    (s.fireTimer t later timer).Sound nodeDef defs := by
  have hhosts := h.timers.root h.members hsize htimer
  have howner := h.members.owner_of_root hsize htimer
  have hpop := h.timers.popRoot t timer
  have hran : ∀ call ∈ timer.callback.toList.map (fun _ => (timer.arg, t)),
      s.node.Hosts defs call.1 call.2 := by
    intro call hcall
    obtain ⟨_, -, rfl⟩ := List.mem_map.mp hcall
    exact hhosts
  constructor
  · exact h.inv
  · exact h.placed
  · unfold ThreadedNode.fireTimer
    dsimp only
    split
    · exact h.members.fires (.periodic hsize htimer later)
    · exact h.members.fires (.oneShot hsize htimer)
  · unfold ThreadedNode.fireTimer
    dsimp only
    split
    · exact hpop.rearm howner hhosts
    · exact hpop
  · exact (h.append hran).ran

theorem Sound.node (h : s.Sound nodeDef defs) (hids : (defs.map fun d => d.1.id).Nodup)
    (hservices : (nodeDef.services.map NosServiceDef.serviceId).Nodup) {a : UnloadAction}
    (hquiet : s.node.Quiet a) {node : UnloadNode} (hs : s.node.step a = some node) :
    Sound { s with node := node, ran := s.ran ++ s.node.messageCalls a } nodeDef defs := by
  have hcalls : ∀ call ∈ s.node.messageCalls a, s.node.Hosts defs call.1 call.2 := by
    intro call hcall
    cases a with
    | worker t =>
      simp only [UnloadNode.messageCalls] at hcall
      split at hcall
      · rename_i i hw
        obtain ⟨x, hx, rfl⟩ := List.mem_map.mp hcall
        exact h.placed.belongs_of_call h.inv hids hservices hw (Option.mem_toList.mp hx)
      · cases hcall
    | _ => cases hcall
  constructor
  · exact h.inv.step hquiet.noCallPending hs
  · exact h.placed.step h.inv hquiet hs
  · exact h.members
  · exact fun id timer htimer hrun t ht => (h.timers id timer htimer hrun t ht).step hs
  · exact fun call hcall => ((h.append hcalls).ran call hcall).step hs

theorem Sound.step (h : s.Sound nodeDef defs) (hids : (defs.map fun d => d.1.id).Nodup)
    (hservices : (nodeDef.services.map NosServiceDef.serviceId).Nodup) {a : ThreadedAction}
    (hquiet : s.Quiet a) (hs : s.step a = some s') : s'.Sound nodeDef defs := by
  cases a with
  | node a =>
    simp only [ThreadedNode.step] at hs
    split at hs
    · obtain ⟨node, hnode, rfl⟩ := Option.map_eq_some_iff.mp hs
      exact h.node hids hservices hquiet hnode
    · cases hs
  | beginLoop t =>
    simp only [ThreadedNode.step] at hs
    split at hs
    · obtain rfl := Option.some.inj hs
      exact h.setPhase _
    · cases hs
  | startNext t ret =>
    simp only [ThreadedNode.step] at hs
    split at hs
    · split at hs
      · rename_i hx
        obtain rfl := Option.some.inj hs
        exact (h.startComponent (List.mem_of_getElem? hx) ret).setPhase _
      · obtain rfl := Option.some.inj hs
        exact h.setPhase _
    · cases hs
  | createTimer x timer callback freeArg =>
    obtain ⟨timers, htimers, rfl⟩ := Option.map_eq_some_iff.mp hs
    exact h.setTimers (h.members.step htimers) (h.timers.create htimers)
  | startTimer timer now intervalMs isPeriodic =>
    obtain ⟨old, hold, hs⟩ := Option.bind_eq_some_iff.mp hs
    obtain ⟨timers, htimers, rfl⟩ := Option.map_eq_some_iff.mp hs
    exact h.setTimers (h.members.step htimers) (h.timers.start h.placed hold htimers)
  | stopTimer timer =>
    obtain ⟨old, hold, hs⟩ := Option.bind_eq_some_iff.mp hs
    obtain ⟨timers, htimers, rfl⟩ := Option.map_eq_some_iff.mp hs
    exact h.setTimers (h.members.step htimers) (h.timers.stop h.members htimers)
  | deleteTimer timer =>
    obtain ⟨timers, htimers, rfl⟩ := Option.map_eq_some_iff.mp hs
    exact h.setTimers (h.members.step htimers) (h.timers.delete h.members htimers)
  | fire t now later =>
    simp only [ThreadedNode.step] at hs
    split at hs
    · rename_i hdue
      obtain ⟨timer, htimer, rfl⟩ := Option.map_eq_some_iff.mp hs
      exact h.fireTimer hdue.2.1 htimer later
    · cases hs

theorem sound_startup (nodeDef : NosNodeDef) (loads : ℕ → ℕ → Option CompExport) :
    (startup nodeDef loads).Sound nodeDef (CompNode.entered nodeDef loads) where
  inv := UnloadNode.inv_startup nodeDef loads
  placed := UnloadNode.placed_startup nodeDef loads
  members := TimerSystem.members_init
  timers := by rintro id timer ⟨⟩
  ran := fun call hcall => absurd hcall List.not_mem_nil

/-- A run that leaves the workers alone while it unloads has made all its callbacks on the threads
that their components are defined for. -/
theorem always_of_sound {loads : ℕ → ℕ → Option CompExport} {actions : List ThreadedAction}
    {P : ThreadedNode → Prop}
    (hP : ∀ s : ThreadedNode, s.Sound nodeDef (CompNode.entered nodeDef loads) → P s)
    (hids : ((CompNode.entered nodeDef loads).map fun d => d.1.id).Nodup)
    (hservices : (nodeDef.services.map NosServiceDef.serviceId).Nodup)
    (hquiet : Run.Guarded step Quiet (startup nodeDef loads) actions) :
    Run.Always step P (startup nodeDef loads) actions :=
  Run.always_of_guarded (I := fun s => s.Sound nodeDef (CompNode.entered nodeDef loads))
    (fun _ _ _ h hquiet hs => h.step hids hservices hquiet hs) hP (sound_startup nodeDef loads)
    hquiet

/-- An entry that a worker has found is overwritten when its component is unloaded: the worker calls
instance 1, which the other thread has. -/
example : (Run.exec step (startup ⟨"N", [[⟨1, "X", "libx.so"⟩], [⟨2, "Y", "liby.so"⟩]],
    [⟨7, "N", 1, none⟩, ⟨8, "N", 2, none⟩]⟩ fun _ _ => some ⟨false, true⟩)
    [.beginLoop 0, .startNext 0 .ok, .startNext 0 .ok, .node (.send 7), .node (.worker 0),
      .node (.worker 0), .node (.unload "X"), .node (.cliStep true none), .node (.worker 0)]).map
    ran = some [(1, 0)] := rfl

end ThreadedNode

end GeminiNOS

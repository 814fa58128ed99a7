import Mathlib.Logic.Function.Basic
import GeminiNOS.Basic
import GeminiNOS.Foundations.Run
import GeminiNOS.Foundations.SwapRemove
import GeminiNOS.Service.Registry

/-! # The life of components

At startup a node loads the components of its worker threads and binds its services
to them. Each thread then starts its components, one after the other, and dispatches
messages to whatever provider their service is bound to. Meanwhile the command line
unloads and reloads components, one registry operation at a time.
-/

namespace GeminiNOS

open Foundations

/-- `MAX_COMP_PER_THREAD` -/
def maxCompPerThread : ℕ := 32

/-- `MAX_COMPONENTS_PER_NODE` -/
def maxComponentsPerNode : ℕ := 64

/-- `MAX_WORKERS` -/
def maxWorkers : ℕ := 8

/-- `nos_comp_status_t` -/
inductive NosCompStatus where
  | loaded
  | inited
  | active
  | stopped
  | error
  deriving DecidableEq, Repr

/-- The callbacks of a library whose component has been loaded and initialised. -/
structure CompExport where
  hasStart : Bool
  hasOnMsg : Bool
  deriving DecidableEq, Repr

/-- An instance `nos_component_t`, with what has happened to it: the thread that it has been
registered with, whether its start has failed, and whether the loop that starts components will
not come to it. -/
structure NosComponent where
  id : ℕ
  name : String
  status : NosCompStatus
  hasStart : Bool
  hasOnMsg : Bool
  thread : ℕ
  failed : Bool
  skipped : Bool
  deriving DecidableEq, Repr

/-- Where a thread stands in `nos_scheduler_run_loop`. -/
inductive RunPhase where
  | notRunning
  | starting (i : ℕ)
  | looping
  deriving DecidableEq, Repr

/-- The loop that starts components has gone past an index. -/
def RunPhase.Passed : RunPhase → ℕ → Prop
  | .notRunning, _ => False
  | .starting i, j => j < i
  | .looping, _ => True

instance (phase : RunPhase) (j : ℕ) : Decidable (phase.Passed j) := by
  cases phase <;> unfold RunPhase.Passed <;> infer_instance

/-- The part of `nos_thread_t` that holds components and messages. A message is the service that
it is for. -/
structure CompThread where
  components : List ℕ
  phase : RunPhase
  msgQueue : List ℕ
  deriving DecidableEq, Repr

/-- `loaded_comp_info_t` -/
structure LoadedCompInfo where
  comp : ℕ
  libName : String
  ownerThread : ℕ
  deriving DecidableEq, Repr

/-- A component in `nos_thread_def_t`. -/
structure CompDef where
  id : ℕ
  name : String
  libName : String

/-- `nos_service_def_t` -/
structure NosServiceDef where
  serviceId : ℕ
  nodeName : String
  providerCompId : ℕ
  remoteUdsPath : Option String

/-- `nos_node_def_t`, with the components of each thread. -/
structure NosNodeDef where
  name : String
  threads : List (List CompDef)
  services : List NosServiceDef

/-- What `node_reload_component` keeps of the instance that it unloads. -/
structure ReloadData where
  id : ℕ
  name : String
  libName : String
  thread : ℕ

/-- Where the command line stands: in the services that it has yet to unregister or to bind, or
before the load of a new instance. -/
inductive CliPc where
  | idle
  | unbind (idx : ℕ) (services : List ℕ) (reload : Option ReloadData)
  | load (reload : ReloadData)
  | bind (comp thread : ℕ) (services : List ℕ)

/-- A start callback has returned, or `on_msg` is called. -/
inductive LifecycleEvent where
  | start (comp : ℕ) (ret : NosStatus)
  | onMsg (comp : ℕ) (hasStart : Bool) (status : NosCompStatus)
  deriving DecidableEq, Repr

/-- A node: the instances in the order of their loading, the worker threads, the table of loaded
components, the service registry, the command line, and the events in their order. -/
structure CompNode where
  nodeDef : NosNodeDef
  comps : ℕ → NosComponent
  compCount : ℕ
  threads : ℕ → CompThread
  workerCount : ℕ
  loaded : List LoadedCompInfo
  registry : ServiceRegistry ℕ ℕ
  cli : CliPc
  events : List LifecycleEvent

/-- The steps of a node. A step of the command line has the outcome of a load, should it do one. -/
inductive CompAction where
  | beginLoop (t : ℕ)
  | startNext (t : ℕ) (ret : NosStatus)
  | dispatch (t : ℕ)
  | send (serviceId : ℕ)
  | unload (name : String)
  | reload (name : String)
  | cliStep (loads : Option CompExport)

namespace CompNode

def setThread (s : CompNode) (t : ℕ) (thread : CompThread) : CompNode :=
  { s with threads := Function.update s.threads t thread }

def setComp (s : CompNode) (x : ℕ) (comp : NosComponent) : CompNode :=
  { s with comps := Function.update s.comps x comp }

/-- The loop that starts components will not come to an instance. -/
def skip (s : CompNode) (x : ℕ) : CompNode := s.setComp x { s.comps x with skipped := true }

/-- `nos_scheduler_register_component`, whose result its callers ignore. -/
def nosSchedulerRegisterComponent (s : CompNode) (t x : ℕ) : CompNode :=
  let thread := s.threads t
  if maxCompPerThread ≤ thread.components.length then s
  else
    let s := s.setThread t { thread with components := thread.components ++ [x] }
    s.setComp x { s.comps x with
      thread := t
      skipped := thread.phase.Passed thread.components.length }

/-- `nos_scheduler_unregister_component`. The loop will not come to the instance, if it has not yet,
and not to the last one either, if that moves to where it has been. -/
def nosSchedulerUnregisterComponent (s : CompNode) (t x : ℕ) : CompNode :=
  let thread := s.threads t
  match thread.components.findIdx? (· = x) with
  | none => s
  | some i =>
    let s := s.setThread t { thread with components := swapRemove thread.components i }
    if thread.phase.Passed i then
      match thread.components.getLast? with
      | some last => if thread.phase.Passed (thread.components.length - 1) then s else s.skip last
      | none => s
    else s.skip x

/-- A new instance, as `node_load_component_internal` returns it. It is in no thread yet. -/
def newComponent (s : CompNode) (id : ℕ) (name : String) (e : CompExport) : CompNode :=
  { s with
    comps := Function.update s.comps s.compCount
      ⟨id, name, .inited, e.hasStart, e.hasOnMsg, 0, false, true⟩
    compCount := s.compCount + 1 }

def addLoaded (s : CompNode) (info : LoadedCompInfo) : CompNode :=
  { s with loaded := s.loaded ++ [info] }

/-- A turn of the inner loop of `node_init_workers`. -/
def initComponent (s : CompNode) (t : ℕ) (c : CompDef) : Option CompExport → CompNode
  | none => s
  | some e =>
    let x := s.compCount
    let s := s.newComponent c.id c.name e
    let s := if s.loaded.length < maxComponentsPerNode then s.addLoaded ⟨x, c.libName, t⟩ else s
    s.nosSchedulerRegisterComponent t x

/-- A turn of the outer loop of `node_init_workers`, with the outcomes of the loads. -/
def initThread (s : CompNode) (t : ℕ) (comps : List CompDef) (loads : ℕ → Option CompExport) :
    CompNode :=
  let comps := (comps.takeWhile (·.id ≠ 0)).take maxComponentsPerNode
  let s := comps.zipIdx.foldl (fun s c => s.initComponent t c.1 (loads c.2)) s
  { s with workerCount := s.workerCount + 1 }

/-- `node_init_workers` -/
def nodeInitWorkers (s : CompNode) (loads : ℕ → ℕ → Option CompExport) : CompNode :=
  let threads := (s.nodeDef.threads.take maxWorkers).zipIdx
  threads.foldl (fun s td => s.initThread td.2 td.1 (loads td.2)) s

/-- `node_get_loaded_comp_by_id` -/
def nodeGetLoadedCompById (s : CompNode) (id : ℕ) : Option ℕ :=
  (s.loaded.find? fun info => (s.comps info.comp).id = id).map LoadedCompInfo.comp

/-- The search for the owner in `node_setup_routing`. -/
def ownerWorker (s : CompNode) (id : ℕ) : Option ℕ :=
  (List.range s.workerCount).find? fun t =>
    (s.threads t).components.any fun x => (s.comps x).id = id

/-- A turn of the loop of `node_setup_routing`, for the components that have been loaded. -/
def setupService (s : CompNode) (registry : ServiceRegistry ℕ ℕ) (svc : NosServiceDef) :
    ServiceRegistry ℕ ℕ :=
  if svc.nodeName = s.nodeDef.name then
    match s.nodeGetLoadedCompById svc.providerCompId, s.ownerWorker svc.providerCompId with
    | some x, some t => (registry.nosServiceRegisterProviderBind svc.serviceId (some x) (some t)).2
    | _, _ => registry
  else if svc.remoteUdsPath.any (· ≠ "") then
    (registry.nosServiceRegisterRemoteEx svc.serviceId (some svc.nodeName) svc.remoteUdsPath).2
  else registry

/-- `node_setup_routing` -/
def nodeSetupRouting (s : CompNode) : CompNode :=
  { s with registry := s.nodeDef.services.foldl s.setupService s.registry }

def zero (nodeDef : NosNodeDef) : CompNode where
  nodeDef := nodeDef
  comps _ := ⟨0, "", .loaded, false, false, 0, false, false⟩
  compCount := 0
  threads _ := ⟨[], .notRunning, []⟩
  workerCount := 0
  loaded := []
  registry := .zero
  cli := .idle
  events := []

/-- The node when its threads are created, with the outcomes of the loads. -/
def startup (nodeDef : NosNodeDef) (loads : ℕ → ℕ → Option CompExport) : CompNode :=
  ((zero nodeDef).nodeInitWorkers loads).nodeSetupRouting

/-- `nos_service_msg_send`, for a service of this node. -/
def nosServiceMsgSend (s : CompNode) (serviceId : ℕ) : CompNode :=
  match s.registry.findServiceEntry serviceId with
  | some ⟨_, _, some t, false, _, _⟩ =>
    let thread := s.threads t
    if thread.msgQueue.length + 1 < maxQueueSize then
      s.setThread t { thread with msgQueue := thread.msgQueue ++ [serviceId] }
    else s
  | _ => s

def nextProvider (s : CompNode) (t : ℕ) : Option ℕ :=
  (s.threads t).msgQueue.head?.bind fun serviceId =>
    (s.registry.findServiceEntry serviceId).bind ServiceSlot.localProvider

/-- A turn of the loop of `process_thread_messages`. -/
def processThreadMessage (s : CompNode) (t : ℕ) : CompNode :=
  let thread := s.threads t
  let s' := s.setThread t { thread with msgQueue := thread.msgQueue.tail }
  match s.nextProvider t with
  | some x =>
    let comp := s.comps x
    if comp.hasOnMsg then { s' with events := s.events ++ [.onMsg x comp.hasStart comp.status] }
    else s'
  | none => s'

/-- A turn of the loop that starts components in `nos_scheduler_run_loop`, or the end of it. -/
def startTurn (s : CompNode) (t i : ℕ) (ret : NosStatus) : CompNode :=
  let thread := s.threads t
  match thread.components[i]? with
  | none => s.setThread t { thread with phase := .looping }
  | some x =>
    let comp := s.comps x
    let s := s.setThread t { thread with phase := .starting (i + 1) }
    if comp.hasStart = true ∧ comp.status ≠ .active then
      { s.setComp x (if ret = .ok then { comp with status := .active }
          else { comp with failed := true }) with
        events := s.events ++ [.start x ret] }
    else s

def findLoaded (s : CompNode) (name : String) : Option ℕ :=
  s.loaded.findIdx? fun info => (s.comps info.comp).name = name

/-- The start of `node_unload_component`, on the entry of the component. -/
def beginUnload (s : CompNode) (idx : ℕ) (info : LoadedCompInfo) (reload : Option ReloadData) :
    CompNode :=
  { s.nosSchedulerUnregisterComponent info.ownerThread info.comp with
    cli := .unbind idx ((s.nodeDef.services.filter fun svc =>
      svc.providerCompId = (s.comps info.comp).id).map NosServiceDef.serviceId) reload }

/-- The next step of `node_unload_component` or of `node_reload_component`. -/
def cliStep (s : CompNode) (loads : Option CompExport) : Option CompNode :=
  match s.cli with
  | .idle => none
  | .unbind idx (serviceId :: services) reload => some { s with
      registry := (s.registry.nosServiceUnregisterProvider serviceId).2
      cli := .unbind idx services reload }
  | .unbind idx [] reload => some { s with
      loaded := s.loaded.eraseIdx idx
      cli := match reload with
        | none => .idle
        | some data => .load data }
  | .load data =>
    match loads with
    | none => some { s with cli := .idle }
    | some e =>
      if s.loaded.length < maxComponentsPerNode then
        let x := s.compCount
        let s := (s.newComponent data.id data.name e).addLoaded ⟨x, data.libName, data.thread⟩
        some { s.nosSchedulerRegisterComponent data.thread x with
          cli := .bind x data.thread ((s.nodeDef.services.filter fun svc =>
            svc.providerCompId = data.id ∧ svc.nodeName = s.nodeDef.name).map
              NosServiceDef.serviceId) }
      else some { s with cli := .idle }
  | .bind _ _ [] => some { s with cli := .idle }
  | .bind x t (serviceId :: services) => some { s with
      registry := (s.registry.nosServiceRegisterProviderBind serviceId (some x) (some t)).2
      cli := .bind x t services }

/-- One step. The command line takes one command at a time. -/
def step (s : CompNode) : CompAction → Option CompNode
  | .beginLoop t =>
    if t < s.workerCount ∧ (s.threads t).phase = .notRunning then
      some (s.setThread t { s.threads t with phase := .starting 0 })
    else none
  | .startNext t ret =>
    match (s.threads t).phase with
    | .starting i => some (s.startTurn t i ret)
    | _ => none
  | .dispatch t =>
    if (s.threads t).phase = .looping ∧ (s.threads t).msgQueue ≠ [] then
      some (s.processThreadMessage t)
    else none
  | .send serviceId => some (s.nosServiceMsgSend serviceId)
  | .unload name =>
    match s.cli, s.findLoaded name with
    | .idle, some idx => s.loaded[idx]?.map fun info => s.beginUnload idx info none
    | .idle, none => some s
    | _, _ => none
  | .reload name =>
    match s.cli, s.findLoaded name with
    | .idle, some idx => s.loaded[idx]?.map fun info => s.beginUnload idx info
        (some ⟨(s.comps info.comp).id, name, info.libName, info.ownerThread⟩)
    | .idle, none => some s
    | _, _ => none
  | .cliStep loads => s.cliStep loads

/-- The law of the life of components. A component with a start callback gets a message only when
its start has returned `NOS_OK`. -/
def OnMsgAfterStart (s : CompNode) : Prop :=
  ∀ before x status after, s.events = before ++ .onMsg x true status :: after →
    status = .active ∧ .start x .ok ∈ before

/-- The condition on a dispatch. If the provider has a start callback, it is a component of the
thread that dispatches, the loop of the thread has not missed it, and its start has not failed. -/
def ProviderStarts (s : CompNode) : CompAction → Prop
  | .dispatch t => ∀ x, s.nextProvider t = some x → (s.comps x).hasStart = true →
    (s.comps x).thread = t ∧ (s.comps x).skipped = false ∧ (s.comps x).failed = false
  | _ => True

end CompNode

end GeminiNOS

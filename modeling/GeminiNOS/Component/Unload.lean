import GeminiNOS.Component.Lifecycle

/-! # Unloading beside dispatch

A worker thread takes a message from its queue, looks up the entry of its service and
calls `on_msg` of the provider that the entry has at the time of the call, in three
steps. The command line unloads a component with steps of its own: it takes the
component out of its thread, unregisters its services one by one, stops it and frees
it. Nothing orders the steps of the one among those of the other.
-/

namespace GeminiNOS

open Foundations

/-- Where a worker stands in `process_thread_messages`: with a message for a service, or with the
entry that it has found. -/
inductive WorkerPc where
  | idle
  | lookup (serviceId : ℕ)
  | call (slot : ℕ)
  deriving DecidableEq, Repr

/-- Where the command line stands in `node_unload_component` or `node_reload_component`. -/
inductive UnloadPc where
  | idle
  | unbind (idx comp : ℕ) (services : List ℕ) (reload : Option ReloadData)
  | stop (idx comp : ℕ) (reload : Option ReloadData)
  | free (idx comp : ℕ) (reload : Option ReloadData)
  | load (reload : ReloadData)
  | bind (comp thread : ℕ) (services : List ℕ)

def UnloadPc.ending : UnloadPc → Option ℕ
  | .stop _ comp _ | .free _ comp _ => some comp
  | _ => none

/-- A call of `on_msg`, and whether its component had been stopped or freed. -/
structure OnMsgCall where
  comp : ℕ
  stopped : Bool
  freed : Bool
  deriving DecidableEq, Repr

/-- A node after its startup: the instances in the order of their loading, the components of the
threads, the table of loaded components, the registry, the queues, the workers, the command line,
the instances that have been stopped and freed, and the calls of `on_msg` so far. -/
structure UnloadNode where
  nodeDef : NosNodeDef
  comps : ℕ → NosComponent
  compCount : ℕ
  components : ℕ → List ℕ
  loaded : List LoadedCompInfo
  registry : ServiceRegistry ℕ ℕ
  msgQueue : ℕ → List ℕ
  worker : ℕ → WorkerPc
  cli : UnloadPc
  stopped : ℕ → Bool
  freed : ℕ → Bool
  calls : List OnMsgCall

/-- A send, the next step of a worker, a command, or the next step of the command line, with whether
the component has a stop callback and the outcome of a load. -/
inductive UnloadAction where
  | send (serviceId : ℕ)
  | worker (t : ℕ)
  | unload (name : String)
  | reload (name : String)
  | cliStep (hasStop : Bool) (loads : Option CompExport)

namespace UnloadNode

/-- The node after `node_init_workers` and `node_setup_routing`, with the outcomes of the loads. -/
def startup (nodeDef : NosNodeDef) (loads : ℕ → ℕ → Option CompExport) : UnloadNode :=
  let node := (CompNode.zero nodeDef).nodeInitWorkers loads
  { nodeDef := nodeDef
    comps := node.comps
    compCount := node.compCount
    components := fun t => (node.threads t).components
    loaded := node.loaded
    registry := nodeDef.services.foldl node.setupService .zero
    msgQueue := fun _ => []
    worker := fun _ => .idle
    cli := .idle
    stopped := fun _ => false
    freed := fun _ => false
    calls := [] }

def setQueue (s : UnloadNode) (t : ℕ) (queue : List ℕ) : UnloadNode :=
  { s with msgQueue := Function.update s.msgQueue t queue }

def setWorker (s : UnloadNode) (t : ℕ) (pc : WorkerPc) : UnloadNode :=
  { s with worker := Function.update s.worker t pc }

/-- `nos_service_msg_send`, for a service of this node. -/
def nosServiceMsgSend (s : UnloadNode) (serviceId : ℕ) : UnloadNode :=
  match s.registry.findServiceEntry serviceId with
  | some entry =>
    if entry.isRemote then s
    else entry.localThread.elim s fun t =>
      if (s.msgQueue t).length + 1 < maxQueueSize then s.setQueue t (s.msgQueue t ++ [serviceId])
      else s
  | none => s

/-- The component whose `on_msg` a worker calls with an entry. -/
def callee (s : UnloadNode) (slot : ℕ) : Option ℕ :=
  (s.registry.slots slot).localProvider.filter fun x => (s.comps x).hasOnMsg

/-- The call of `on_msg`. -/
def callOnMsg (s : UnloadNode) (slot : ℕ) : UnloadNode :=
  { s with calls := s.calls ++ (s.callee slot).toList.map fun x => ⟨x, s.stopped x, s.freed x⟩ }

/-- The next step of `process_thread_messages`. -/
def workerStep (s : UnloadNode) (t : ℕ) : UnloadNode :=
  match s.worker t with
  | .idle =>
    match s.msgQueue t with
    | [] => s
    | serviceId :: rest => (s.setQueue t rest).setWorker t (.lookup serviceId)
  | .lookup serviceId =>
    s.setWorker t (((s.registry.findIdx ServiceSlot.serviceId serviceId).map .call).getD .idle)
  | .call slot => (s.callOnMsg slot).setWorker t .idle

def findLoaded (s : UnloadNode) (name : String) : Option ℕ :=
  s.loaded.findIdx? fun info => (s.comps info.comp).name = name

/-- `nos_scheduler_unregister_component` -/
def nosSchedulerUnregisterComponent (s : UnloadNode) (t x : ℕ) : UnloadNode :=
  match (s.components t).findIdx? (· = x) with
  | none => s
  | some i =>
    { s with
        components :=
          Function.update s.components t (Foundations.swapRemove (s.components t) i) }

/-- `nos_scheduler_register_component` -/
def nosSchedulerRegisterComponent (s : UnloadNode) (t x : ℕ) : UnloadNode :=
  if maxCompPerThread ≤ (s.components t).length then s
  else { s with components := Function.update s.components t (s.components t ++ [x]) }

def servicesOf (s : UnloadNode) (id : ℕ) : List ℕ :=
  (s.nodeDef.services.filter fun svc => svc.providerCompId = id).map NosServiceDef.serviceId

/-- The start of `node_unload_component`, on the entry of the component. -/
def beginUnload (s : UnloadNode) (idx : ℕ) (info : LoadedCompInfo) (reload : Option ReloadData) :
    UnloadNode :=
  { s.nosSchedulerUnregisterComponent info.ownerThread info.comp with
    cli := .unbind idx info.comp (s.servicesOf (s.comps info.comp).id) reload }

/-- The instance that `node_load_component_internal` returns, entered by `node_reload_component`. -/
def loadInstance (s : UnloadNode) (data : ReloadData) (e : CompExport) : UnloadNode :=
  { s with
    comps := Function.update s.comps s.compCount
      ⟨data.id, data.name, .inited, e.hasStart, e.hasOnMsg, data.thread, false, false⟩
    compCount := s.compCount + 1
    loaded := s.loaded ++ [⟨s.compCount, data.libName, data.thread⟩] }

/-- The next step of `node_unload_component` or of `node_reload_component`. -/
def cliStep (s : UnloadNode) (hasStop : Bool) (loads : Option CompExport) : Option UnloadNode :=
  match s.cli with
  | .idle => none
  | .unbind idx x (serviceId :: services) reload => some { s with
      registry := (s.registry.nosServiceUnregisterProvider serviceId).2
      cli := .unbind idx x services reload }
  | .unbind idx x [] reload => some { s with cli := .stop idx x reload }
  | .stop idx x reload => some { s with
      stopped := if hasStop then Function.update s.stopped x true else s.stopped
      cli := .free idx x reload }
  | .free idx x reload => some { s with
      freed := Function.update s.freed x true
      loaded := s.loaded.eraseIdx idx
      cli := (reload.map .load).getD .idle }
  | .load data =>
    match loads with
    | none => some { s with cli := .idle }
    | some e =>
      if s.loaded.length < maxComponentsPerNode then
        some { (s.loadInstance data e).nosSchedulerRegisterComponent data.thread s.compCount with
          cli := .bind s.compCount data.thread ((s.nodeDef.services.filter fun svc =>
            svc.providerCompId = data.id ∧ svc.nodeName = s.nodeDef.name).map
              NosServiceDef.serviceId) }
      else some { s with cli := .idle }
  | .bind _ _ [] => some { s with cli := .idle }
  | .bind x t (serviceId :: services) => some { s with
      registry := (s.registry.nosServiceRegisterProviderBind serviceId (some x) (some t)).2
      cli := .bind x t services }

/-- One step. The command line takes one command at a time. -/
def step (s : UnloadNode) : UnloadAction → Option UnloadNode
  | .send serviceId => some (s.nosServiceMsgSend serviceId)
  | .worker t => some (s.workerStep t)
  | .unload name =>
    match s.cli, s.findLoaded name with
    | .idle, some idx => s.loaded[idx]?.map fun info => s.beginUnload idx info none
    | .idle, none => some s
    | _, _ => none
  | .reload name =>
    match s.cli, s.findLoaded name with
    | .idle, some idx => s.loaded[idx]?.map fun info => s.beginUnload idx info
        (some ⟨(s.comps info.comp).id, name, info.libName, info.ownerThread⟩)
    | .idle, none => some s
    | _, _ => none
  | .cliStep hasStop loads => s.cliStep hasStop loads

/-- No call of `on_msg` is on a component that has been stopped or freed. -/
def CallsAlive (s : UnloadNode) : Prop :=
  ∀ call ∈ s.calls, call.stopped = false ∧ call.freed = false

/-- The condition on the stop and on the free of a component. No worker stands between its lookup
and its call with an entry that would lead it to the component. -/
def NoCallPending (s : UnloadNode) : UnloadAction → Prop
  | .cliStep _ _ => ∀ x, s.cli.ending = some x → ∀ t slot, s.worker t = .call slot →
    s.callee slot ≠ some x
  | _ => True

end UnloadNode

end GeminiNOS

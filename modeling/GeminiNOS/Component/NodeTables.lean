import GeminiNOS.Component.Unload

/-! # The tables of a node

A command of the command line runs to its end before the next one begins. Between commands
the tables that unloading and loading edit are those of the threads, of the loaded components
and of the services.
-/

namespace GeminiNOS

open Foundations

/-- What happens in `node_load_component_internal`. -/
structure LoadOutcome where
  dlopen : Bool
  dlsym : Bool
  callocs : Bool
  exported : NosStatus
  hasInit : Bool
  inited : NosStatus
  callbacks : CompExport

/-- The instance that `node_load_component_internal` returns, if any. -/
def nodeLoadComponentInternal (o : LoadOutcome) : Option CompExport :=
  if o.dlopen = false then none
  else if o.dlsym = false then none
  else if o.callocs = false then none
  else if o.exported ≠ .ok then none
  else if o.hasInit = true ∧ o.inited ≠ .ok then none
  else some o.callbacks

/-- The tables of a node: the instances in the order of their loading, the components of the
threads, the table of loaded components and the registry. -/
structure NodeTables where
  nodeDef : NosNodeDef
  comps : ℕ → NosComponent
  compCount : ℕ
  components : ℕ → List ℕ
  loaded : List LoadedCompInfo
  registry : ServiceRegistry ℕ ℕ

inductive NodeCommand where
  | load (name : String) (o : LoadOutcome)
  | reload (name : String) (o : LoadOutcome)
  | unload (name : String)

def NodeCommand.name : NodeCommand → String
  | .load name _ | .reload name _ | .unload name => name

/-- The loop of `node_unload_component` over the services. -/
def unregisterServices (registry : ServiceRegistry ℕ ℕ) (ids : List ℕ) : ServiceRegistry ℕ ℕ :=
  ids.foldl (fun reg id => (reg.nosServiceUnregisterProvider id).2) registry

/-- The loop of `node_reload_component` over the services. -/
def bindServices (registry : ServiceRegistry ℕ ℕ) (ids : List ℕ) (x t : ℕ) :
    ServiceRegistry ℕ ℕ :=
  ids.foldl (fun reg id => (reg.nosServiceRegisterProviderBind id (some x) (some t)).2) registry

def UnloadNode.tables (s : UnloadNode) : NodeTables :=
  ⟨s.nodeDef, s.comps, s.compCount, s.components, s.loaded, s.registry⟩

namespace NodeTables

def servicesOf (s : NodeTables) (id : ℕ) : List ℕ :=
  (s.nodeDef.services.filter fun svc => svc.providerCompId = id).map NosServiceDef.serviceId

def localServicesOf (s : NodeTables) (id : ℕ) : List ℕ :=
  (s.nodeDef.services.filter fun svc =>
    svc.providerCompId = id ∧ svc.nodeName = s.nodeDef.name).map NosServiceDef.serviceId

def findEntry (s : NodeTables) (name : String) : Option (ℕ × LoadedCompInfo) :=
  (s.loaded.findIdx? fun info => (s.comps info.comp).name = name).bind fun idx =>
    s.loaded[idx]?.map (idx, ·)

/-- `nos_scheduler_unregister_component` -/
def nosSchedulerUnregisterComponent (s : NodeTables) (t x : ℕ) : NodeTables :=
  match (s.components t).findIdx? (· = x) with
  | none => s
  | some i =>
    { s with components := Function.update s.components t (swapRemove (s.components t) i) }

/-- `nos_scheduler_register_component` -/
def nosSchedulerRegisterComponent (s : NodeTables) (t x : ℕ) : NodeTables :=
  if maxCompPerThread ≤ (s.components t).length then s
  else { s with components := Function.update s.components t (s.components t ++ [x]) }

/-- `node_unload_component` on an entry. -/
def unloadEntry (s : NodeTables) (idx : ℕ) (info : LoadedCompInfo) : NodeTables :=
  { s.nosSchedulerUnregisterComponent info.ownerThread info.comp with
    registry := unregisterServices s.registry (s.servicesOf (s.comps info.comp).id)
    loaded := s.loaded.eraseIdx idx }

/-- `node_unload_component` -/
def nodeUnloadComponent (s : NodeTables) (name : String) : NosStatus × NodeTables :=
  match s.findEntry name with
  | none => (.err, s)
  | some (idx, info) => (.ok, s.unloadEntry idx info)

/-- A new instance in the table of loaded components, if that has room, in its thread and at its
services. -/
def enterInstance (s : NodeTables) (data : ReloadData) (e : CompExport) : NodeTables :=
  if s.loaded.length < maxComponentsPerNode then
    let x := s.compCount
    let s' : NodeTables := { s with
      comps := Function.update s.comps x
        ⟨data.id, data.name, .inited, e.hasStart, e.hasOnMsg, data.thread, false, false⟩
      compCount := x + 1
      loaded := s.loaded ++ [⟨x, data.libName, data.thread⟩] }
    { s'.nosSchedulerRegisterComponent data.thread x with
      registry := bindServices s.registry (s.localServicesOf data.id) x data.thread }
  else s

/-- `node_reload_component` -/
def nodeReloadComponent (s : NodeTables) (name : String) (loads : Option CompExport) :
    NosStatus × NodeTables :=
  match s.findEntry name with
  | none => (.err, s)
  | some (_, info) =>
    let s' := (s.nodeUnloadComponent name).2
    match loads with
    | none => (.err, s')
    | some e =>
      (.ok, s'.enterInstance
        ⟨(s.comps info.comp).id, name, info.libName, info.ownerThread⟩ e)

/-- `do_load` -/
def doLoad (s : NodeTables) (name : String) (o : LoadOutcome) : NodeTables :=
  (s.nodeReloadComponent name (nodeLoadComponentInternal o)).2

/-- `do_reload` -/
def doReload (s : NodeTables) (name : String) (o : LoadOutcome) : NodeTables :=
  (s.nodeReloadComponent name (nodeLoadComponentInternal o)).2

/-- `do_unload` -/
def doUnload (s : NodeTables) (name : String) : NodeTables := (s.nodeUnloadComponent name).2

def step (s : NodeTables) : NodeCommand → Option NodeTables
  | .load name o => some (s.doLoad name o)
  | .reload name o => some (s.doReload name o)
  | .unload name => some (s.doUnload name)

def startup (nodeDef : NosNodeDef) (loads : ℕ → ℕ → Option CompExport) : NodeTables :=
  (UnloadNode.startup nodeDef loads).tables

end NodeTables

end GeminiNOS

import GeminiNOS.Component.Unload
import GeminiNOS.Foundations.Dict
import GeminiNOS.Manifest.Config
import Mathlib.Data.List.Dedup

/-! # The manifests of the nodes

`gen_manifest.py` fills dictionaries from the whole configuration, in which later
entries overwrite earlier ones. It gives each node the records of the services that
its components provide or require, and writes a manifest for each node. A node sets up
its registry from its own manifest alone.
-/

namespace GeminiNOS

open Foundations

/-- The order in which a set of strings is gone through, where each element comes up once. -/
structure SetOrder where
  toList : List String → List String
  perm : ∀ l, (toList l).Perm l.dedup

/-- An entry of `global_svc_map`. -/
structure ServiceRecord where
  name : String
  id : ℤ
  type : String
  providerId : Option ℤ
  node : String
  udsPath : Option String
  deriving DecidableEq, Repr

/-- A component of a thread, in `comp_ids`, `comp_names` and `comp_libs`. -/
structure ResolvedComponent where
  id : ℤ
  name : String
  lib : Option String
  deriving DecidableEq, Repr

/-- A node with what `validate_and_resolve` enters. -/
structure ResolvedNode where
  node : ConfNode
  threads : List (String × List ResolvedComponent)
  resolvedBins : List ConfBin
  resolvedServices : List ServiceRecord
  platformInits : List String

/-- `nos_service_def_t`, with its name. -/
structure ManifestService where
  serviceName : String
  serviceDef : NosServiceDef

/-- What `generate_node_manifest` writes: `nos_node_def_t` with the arrays that it points to. -/
structure NodeManifest where
  name : String
  udsPath : String
  bufferPools : List (ℕ × ℕ)
  busyPollCycles : ℕ
  threads : List (String × List CompDef)
  services : List ManifestService
  platformInits : List String

/-- `INFRA_INIT_MAP` -/
def infraInitMap : List (String × String) :=
  [("SVC_LOG", "nos_log_init"), ("SVC_KV_DB", "nos_kv_db_init"), ("SVC_TIMER", "nos_timer_init")]

namespace ConfData

/-- The services of the configuration, in the order of the loops. -/
def services (data : ConfData) : List ConfService :=
  data.platform ++ data.components.flatMap ConfComponent.provides

def compMap (data : ConfData) : AList fun _ : String => ConfComponent :=
  dictOf (data.components.map fun c => (c.name, c))

def modelToLib (data : ConfData) : AList fun _ : String => String :=
  dictOf (data.models.map fun m => (m.name, m.lib))

def nodeToUds (data : ConfData) : Option (AList fun _ : String => String) :=
  (data.nodes.mapM fun n : ConfNode => n.udsPath.map (n.name, ·)).map dictOf

/-- The components in the threads of the nodes, in the order of the loops, that are in the
configuration. -/
def placements (data : ConfData) : List (String × String) :=
  data.nodes.flatMap fun n => n.threads.flatMap fun t =>
    (t.components.filter fun name => (data.compMap.lookup name).isSome).map (·, n.name)

def compToNode (data : ConfData) : AList fun _ : String => String := dictOf data.placements

def platformRecord (svc : ConfService) : ServiceRecord :=
  ⟨svc.name, svc.id, "embedded", none, "Platform", none⟩

def providerRecord (data : ConfData) (nodeToUds : AList fun _ : String => String)
    (comp : ConfComponent) (svc : ConfService) : Option ServiceRecord :=
  comp.id.map fun id =>
    { name := svc.name
      id := svc.id
      type := "remote"
      providerId := some id
      node := (data.compToNode.lookup comp.name).getD "Unknown"
      udsPath := some ((nodeToUds.lookup ((data.compToNode.lookup comp.name).getD "")).getD "") }

/-- The records of the components' services, in the order of the loops. -/
def providerRecords (data : ConfData) (nodeToUds : AList fun _ : String => String) :
    Option (List ServiceRecord) :=
  (data.components.flatMap fun comp => comp.provides.map (comp, ·)).mapM fun p =>
    data.providerRecord nodeToUds p.1 p.2

def globalSvcMap (data : ConfData) : Option (AList fun _ : String => ServiceRecord) := do
  let nodeToUds ← data.nodeToUds
  let records ← data.providerRecords nodeToUds
  some (dictOf ((data.platform.map platformRecord ++ records).map fun r => (r.name, r)))

def profileMap (data : ConfData) : AList fun _ : String => List ConfBin :=
  dictOf (data.profiles.map fun p => (p.name, p.bins))

def resolveComponent (data : ConfData) (compName : String) : Option ResolvedComponent := do
  let comp ← data.compMap.lookup compName
  let id ← comp.id
  let model ← comp.model
  some ⟨id, compName, data.modelToLib.lookup model⟩

def resolveThread (data : ConfData) (t : ConfThread) :
    Option (String × List ResolvedComponent) :=
  (t.components.mapM data.resolveComponent).map (t.name, ·)

/-- What is added to `needed_svc_names` for a node. -/
def neededSvcNames (data : ConfData) (n : ConfNode) : List String :=
  (n.threads.flatMap ConfThread.components).flatMap fun compName =>
    (data.compMap.lookup compName).elim [] fun comp =>
      comp.provides.map ConfService.name ++ comp.requires

def resolvedBins (data : ConfData) (n : ConfNode) : List ConfBin :=
  (data.profileMap.lookup (n.bufferProfile.getD "default")).getD
    ((data.profileMap.lookup "default").getD [])

def resolveNode (data : ConfData) (order : SetOrder)
    (globalSvcMap : AList fun _ : String => ServiceRecord) (n : ConfNode) :
    Option ResolvedNode := do
  let threads ← n.threads.mapM data.resolveThread
  let needed := order.toList (data.neededSvcNames n)
  some
    { node := n
      threads := threads
      resolvedBins := data.resolvedBins n
      resolvedServices := needed.filterMap globalSvcMap.lookup
      platformInits := order.toList (needed.filterMap (infraInitMap.lookup ·)) }

def compIds (data : ConfData) : Option (AList fun _ : String => ℤ) :=
  (data.components.mapM fun c : ConfComponent => c.id.map (c.name, ·)).map dictOf

def svcNameToId (data : ConfData) : AList fun _ : String => ℤ :=
  dictOf (data.services.map fun svc => (svc.name, svc.id))

/-- `validate_and_resolve`: the nodes, and the ids of the components and of the services for the
header. -/
def validateAndResolve (data : ConfData) (order : SetOrder) :
    Option (List ResolvedNode × (AList fun _ : String => ℤ) × AList fun _ : String => ℤ) := do
  let globalSvcMap ← data.globalSvcMap
  let nodes ← data.nodes.mapM (data.resolveNode order globalSvcMap)
  let compIds ← data.compIds
  some (nodes, compIds, data.svcNameToId)

end ConfData

/-- An integer in the initialiser of a `uint32_t`. -/
def toUint32 (i : ℤ) : ℕ := (i % 2 ^ 32).toNat

def ServiceRecord.toManifest (r : ServiceRecord) : ManifestService :=
  ⟨r.name, ⟨toUint32 r.id, r.node, toUint32 (r.providerId.getD 0), some (r.udsPath.getD "")⟩⟩

def ResolvedComponent.toManifest (c : ResolvedComponent) : CompDef :=
  ⟨toUint32 c.id, c.name, c.lib.getD "None"⟩

def bufferPool (bin : ConfBin) : Option (ℕ × ℕ) := do
  let size ← bin.lookup "size"
  let count ← bin.lookup "count"
  some (toUint32 size, toUint32 count)

def generateNodeManifest (node : ResolvedNode) : Option NodeManifest := do
  let bufferPools ← node.resolvedBins.mapM bufferPool
  let udsPath ← node.node.udsPath
  some
    { name := node.node.name
      udsPath := udsPath
      bufferPools := bufferPools
      busyPollCycles := toUint32 (node.node.busyPollCycles.getD 500)
      threads := node.threads.map fun t => (t.1, t.2.map ResolvedComponent.toManifest)
      services := node.resolvedServices.map ServiceRecord.toManifest
      platformInits := node.platformInits }

/-- The manifests that `gen_manifest.py` writes for a configuration that it accepts. -/
def ConfData.genManifest (data : ConfData) (order : SetOrder) : Option (List NodeManifest) := do
  let resolved ← data.validateAndResolve order
  resolved.1.mapM generateNodeManifest

namespace NodeManifest

/-- The part of the manifest that the node goes through at its startup. -/
def nodeDef (m : NodeManifest) : NosNodeDef :=
  ⟨m.name, m.threads.map Prod.snd, m.services.map ManifestService.serviceDef⟩

/-- The registry of the node after `node_setup_routing`, with the outcomes of the loads. -/
def registry (m : NodeManifest) (loads : ℕ → ℕ → Option CompExport) : ServiceRegistry ℕ ℕ :=
  (UnloadNode.startup m.nodeDef loads).registry

end NodeManifest

namespace ConfData

/-- Services with different names have different ids, as `uint32_t`. -/
def ServiceIdsDistinct (data : ConfData) : Prop :=
  ∀ svc ∈ data.services, ∀ svc' ∈ data.services,
    toUint32 svc.id = toUint32 svc'.id → svc.name = svc'.name

end ConfData

end GeminiNOS

import GeminiNOS.Component.UnloadRace
import GeminiNOS.Manifest.Generate

/-! # Routes agree

All manifests take their records from one dictionary. The record of a service that a
component provides names the last node that the component is placed in, and so does
its path. That node needs the service too, since its component provides it, and lists
the same record.
-/

namespace GeminiNOS

open Foundations

/-- The services from which a remote route of a node comes: the node lists them with another node
and with a path, which is the one of the route. -/
def RemoteService (nodeName : String) (id : ℕ) (slot : ServiceSlot ℕ ℕ) (svc : NosServiceDef) :
    Prop :=
  svc.serviceId = id ∧ svc.nodeName ≠ nodeName ∧
    ∃ udsPath, svc.remoteUdsPath = some udsPath ∧ udsPath ≠ "" ∧
      slot.remoteUdsPath = strncpy 107 udsPath

/-- What holds of the registry during `node_setup_routing`: its remote routes come from the services
that have been gone through. -/
structure RoutesFrom (nodeName : String) (services : List NosServiceDef)
    (reg : ServiceRegistry ℕ ℕ) : Prop where
  distinct : reg.Distinct
  remote : ∀ id slot, reg.findServiceEntry id = some slot → slot.isRemote = true →
    ∃ svc ∈ services, RemoteService nodeName id slot svc

namespace RoutesFrom

variable {nodeName : String} {services : List NosServiceDef} {reg : ServiceRegistry ℕ ℕ}

theorem zero : RoutesFrom nodeName [] .zero where
  distinct := ServiceRegistry.distinct_zero
  remote := fun id slot h => by
    have hslot : (ServiceRegistry.zero : ServiceRegistry ℕ ℕ).findServiceEntry id = none :=
      SlotTable.find_eq_none.mpr fun i hi => absurd hi (Nat.not_lt_zero i)
    rw [hslot] at h
    cases h

theorem concat (h : RoutesFrom nodeName services reg) (svc : NosServiceDef) :
    RoutesFrom nodeName (services ++ [svc]) reg where
  distinct := h.distinct
  remote := fun id slot hslot hremote => by
    obtain ⟨svc', hsvc', h'⟩ := h.remote id slot hslot hremote
    exact ⟨svc', List.mem_append_left _ hsvc', h'⟩

theorem register (h : RoutesFrom nodeName services reg) {svc : NosServiceDef}
    {write : ServiceSlot ℕ ℕ → ServiceSlot ℕ ℕ}
    (hid : ∀ slot, (write slot).serviceId = svc.serviceId)
    (hremote : ∀ slot, (write slot).isRemote = true →
      RemoteService nodeName svc.serviceId (write slot) svc) :
    RoutesFrom nodeName (services ++ [svc]) (reg.register svc.serviceId write).2 := by
  rcases ServiceRegistry.register_cases h.distinct hid with he | ⟨-, hdistinct, old, -, hfind⟩
  · rw [he]
    exact h.concat svc
  · refine ⟨hdistinct, fun id slot hslot hslotRemote => ?_⟩
    rw [hfind] at hslot
    by_cases hsvc : id = svc.serviceId
    · rw [if_pos hsvc] at hslot
      obtain rfl := Option.some.inj hslot
      subst hsvc
      exact ⟨svc, by simp, hremote old hslotRemote⟩
    · rw [if_neg hsvc] at hslot
      exact (h.concat svc).remote id slot hslot hslotRemote

theorem setupService {node : CompNode} (h : RoutesFrom node.nodeDef.name services reg)
    (svc : NosServiceDef) :
    RoutesFrom node.nodeDef.name (services ++ [svc]) (node.setupService reg svc) := by
  unfold CompNode.setupService
  split
  · split
    · exact h.register (fun _ => rfl) fun _ hlocal => by cases hlocal
    · exact h.concat svc
  · rename_i hname
    split
    · rename_i hpath
      obtain ⟨udsPath, hsome, hne⟩ := (Option.any_eq_true _ _).mp hpath
      refine h.register (fun _ => rfl) fun slot _ => ⟨rfl, hname, udsPath, hsome, ?_, ?_⟩
      · exact of_decide_eq_true hne
      · rw [ServiceRegistry.writeRemote, hsome]
        rfl
    · exact h.concat svc

theorem foldl (node : CompNode) (services : List NosServiceDef) :
    RoutesFrom node.nodeDef.name services
      (services.foldl (CompNode.setupService node) .zero) := by
  induction services using List.reverseRecOn with
  | nil => exact zero
  | append_singleton services svc ih =>
    rw [List.foldl_append]
    exact ih.setupService svc

end RoutesFrom

section

variable {data : ConfData} {order : SetOrder} {ms : List NodeManifest} {m : NodeManifest}
  {n : ConfNode} {svcMap : AList fun _ : String => ServiceRecord}

/-- The manifest of a node of the configuration, with the records of a dictionary. -/
structure ManifestOf (data : ConfData) (svcMap : AList fun _ : String => ServiceRecord)
    (n : ConfNode) (m : NodeManifest) : Prop where
  name : m.name = n.name
  udsPath : n.udsPath = some m.udsPath
  services : ∀ svc, svc ∈ m.services ↔ ∃ name ∈ data.neededSvcNames n, ∃ r,
    svcMap.lookup name = some r ∧ r.toManifest = svc
  placed : ∀ t ∈ n.threads, ∀ compName ∈ t.components, ∃ comp id,
    data.compMap.lookup compName = some comp ∧ comp.id = some id ∧
    ∃ t' ∈ m.threads, ∃ c ∈ t'.2, c.name = compName ∧ c.id = toUint32 id

theorem SetOrder.mem_toList (order : SetOrder) {l : List String} {s : String} :
    s ∈ order.toList l ↔ s ∈ l :=
  (order.perm l).mem_iff.trans List.mem_dedup

theorem resolveNode_eq_some {rn : ResolvedNode} (h : data.resolveNode order svcMap n = some rn) :
    rn.node = n ∧ n.threads.mapM data.resolveThread = some rn.threads ∧
      rn.resolvedServices = (order.toList (data.neededSvcNames n)).filterMap svcMap.lookup := by
  obtain ⟨threads, hthreads, h⟩ := Option.bind_eq_some_iff.mp h
  obtain rfl := Option.some.inj h
  exact ⟨rfl, hthreads, rfl⟩

theorem generateNodeManifest_eq_some {rn : ResolvedNode} (h : generateNodeManifest rn = some m) :
    m.name = rn.node.name ∧ rn.node.udsPath = some m.udsPath ∧
      m.threads = rn.threads.map (fun t => (t.1, t.2.map ResolvedComponent.toManifest)) ∧
      m.services = rn.resolvedServices.map ServiceRecord.toManifest := by
  obtain ⟨pools, -, h⟩ := Option.bind_eq_some_iff.mp h
  obtain ⟨udsPath, hpath, h⟩ := Option.bind_eq_some_iff.mp h
  obtain rfl := Option.some.inj h
  exact ⟨rfl, hpath, rfl, rfl⟩

theorem resolveComponent_eq_some {compName : String} {c : ResolvedComponent}
    (h : data.resolveComponent compName = some c) :
    c.name = compName ∧ ∃ comp, data.compMap.lookup compName = some comp ∧ comp.id = some c.id := by
  obtain ⟨comp, hcomp, h⟩ := Option.bind_eq_some_iff.mp h
  obtain ⟨id, hid, h⟩ := Option.bind_eq_some_iff.mp h
  obtain ⟨model, -, h⟩ := Option.bind_eq_some_iff.mp h
  obtain rfl := Option.some.inj h
  exact ⟨rfl, comp, hcomp, hid⟩

theorem manifestOf {rn : ResolvedNode} (hn : data.resolveNode order svcMap n = some rn)
    (hm : generateNodeManifest rn = some m) : ManifestOf data svcMap n m := by
  obtain ⟨rfl, hthreads, hservices⟩ := resolveNode_eq_some hn
  obtain ⟨hname, hpath, hmthreads, hmservices⟩ := generateNodeManifest_eq_some hm
  refine ⟨hname, hpath, fun svc => ?_, fun t ht compName hcomp => ?_⟩
  · simp only [hmservices, hservices, List.mem_map, List.mem_filterMap, order.mem_toList]
    constructor
    · rintro ⟨r, ⟨name, hneeded, hr⟩, rfl⟩
      exact ⟨name, hneeded, r, hr, rfl⟩
    · rintro ⟨name, hneeded, r, hr, rfl⟩
      exact ⟨r, ⟨name, hneeded, hr⟩, rfl⟩
  · obtain ⟨t', ht', hresolved⟩ := mem_mapM_of_mem hthreads ht
    obtain ⟨comps, hcomps, rfl⟩ := Option.map_eq_some_iff.mp hresolved
    obtain ⟨c, hc, hresolved⟩ := mem_mapM_of_mem hcomps hcomp
    obtain ⟨hcname, comp, hlookup, hid⟩ := resolveComponent_eq_some hresolved
    have hmem : (t.name, comps.map ResolvedComponent.toManifest) ∈ m.threads := by
      rw [hmthreads]
      exact List.mem_map_of_mem ht'
    exact ⟨comp, c.id, hlookup, hid, _, hmem, c.toManifest, List.mem_map_of_mem hc, hcname, rfl⟩

/-- Where a record of the dictionary comes from: a service of the platform, or a service of a
component that has an id. -/
theorem record_of_lookup (h : data.globalSvcMap = some svcMap) {name : String}
    {r : ServiceRecord} (hr : svcMap.lookup name = some r) :
    r.name = name ∧ ((∃ svc ∈ data.platform, r = ConfData.platformRecord svc) ∨
      ∃ nodeToUds, data.nodeToUds = some nodeToUds ∧ ∃ comp ∈ data.components,
        ∃ svc ∈ comp.provides, data.providerRecord nodeToUds comp svc = some r) := by
  obtain ⟨nodeToUds, hnodeToUds, h⟩ := Option.bind_eq_some_iff.mp h
  obtain ⟨records, hrecords, h⟩ := Option.bind_eq_some_iff.mp h
  obtain rfl := Option.some.inj h
  obtain ⟨r', hr', heq⟩ := List.mem_map.mp (mem_of_lookup_dictOf hr)
  obtain ⟨rfl, rfl⟩ := Prod.mk.inj heq
  refine ⟨rfl, ?_⟩
  rcases List.mem_append.mp hr' with hplatform | hprovider
  · obtain ⟨svc, hsvc, rfl⟩ := List.mem_map.mp hplatform
    exact .inl ⟨svc, hsvc, rfl⟩
  · obtain ⟨p, hp, hrecord⟩ := exists_of_mem_mapM hrecords hprovider
    obtain ⟨comp, hcomp, hp⟩ := List.mem_flatMap.mp hp
    obtain ⟨svc, hsvc, rfl⟩ := List.mem_map.mp hp
    exact .inr ⟨nodeToUds, hnodeToUds, comp, hcomp, svc, hsvc, hrecord⟩

theorem lookup_compMap (hcomps : (data.components.map ConfComponent.name).Nodup)
    {comp : ConfComponent} (hcomp : comp ∈ data.components) :
    data.compMap.lookup comp.name = some comp := by
  refine lookup_dictOf ?_ (List.mem_map_of_mem hcomp)
  rw [List.map_map]
  exact hcomps

theorem lookup_nodeToUds (hnodes : (data.nodes.map ConfNode.name).Nodup)
    {nodeToUds : AList fun _ : String => String} (h : data.nodeToUds = some nodeToUds)
    (hn : n ∈ data.nodes) : nodeToUds.lookup n.name = n.udsPath := by
  obtain ⟨entries, hentries, rfl⟩ := Option.map_eq_some_iff.mp h
  exact lookup_dictOf_mapM hentries hnodes hn

theorem exists_of_lookup_nodeToUds {nodeToUds : AList fun _ : String => String}
    (h : data.nodeToUds = some nodeToUds) {nodeName udsPath : String}
    (hlookup : nodeToUds.lookup nodeName = some udsPath) : ∃ n ∈ data.nodes, n.name = nodeName := by
  obtain ⟨entries, hentries, rfl⟩ := Option.map_eq_some_iff.mp h
  obtain ⟨n, hn, hentry⟩ := exists_of_mem_mapM hentries (mem_of_lookup_dictOf hlookup)
  obtain ⟨path, -, heq⟩ := Option.map_eq_some_iff.mp hentry
  exact ⟨n, hn, (Prod.mk.inj heq).1⟩

theorem placed_of_lookup_compToNode {compName nodeName : String}
    (h : data.compToNode.lookup compName = some nodeName) :
    ∃ n ∈ data.nodes, n.name = nodeName ∧ ∃ t ∈ n.threads, compName ∈ t.components := by
  obtain ⟨n, hn, hmem⟩ := List.mem_flatMap.mp (mem_of_lookup_dictOf h)
  obtain ⟨t, ht, hmem⟩ := List.mem_flatMap.mp hmem
  obtain ⟨compName', hcompName, heq⟩ := List.mem_map.mp hmem
  obtain ⟨rfl, rfl⟩ := Prod.mk.inj heq
  exact ⟨n, hn, rfl, t, ht, List.mem_of_mem_filter hcompName⟩

theorem exists_lookup_compToNode (hcomps : (data.components.map ConfComponent.name).Nodup)
    {comp : ConfComponent} (hcomp : comp ∈ data.components)
    (hplaced : ∃ n ∈ data.nodes, ∃ t ∈ n.threads, comp.name ∈ t.components) :
    ∃ nodeName, data.compToNode.lookup comp.name = some nodeName := by
  obtain ⟨n, hn, t, ht, hname⟩ := hplaced
  refine exists_lookup_dictOf (v := n.name) ?_
  refine List.mem_flatMap.mpr ⟨n, hn, List.mem_flatMap.mpr ⟨t, ht, ?_⟩⟩
  refine List.mem_map_of_mem (List.mem_filter.mpr ⟨hname, ?_⟩)
  rw [lookup_compMap hcomps hcomp]
  rfl

theorem providerRecord_eq_some {nodeToUds : AList fun _ : String => String} {comp : ConfComponent}
    {svc : ConfService} {r : ServiceRecord}
    (h : data.providerRecord nodeToUds comp svc = some r) :
    comp.id = r.providerId ∧ r.name = svc.name ∧
      r.node = (data.compToNode.lookup comp.name).getD "Unknown" ∧
      r.udsPath =
        some ((nodeToUds.lookup ((data.compToNode.lookup comp.name).getD "")).getD "") := by
  obtain ⟨id, hid, rfl⟩ := Option.map_eq_some_iff.mp h
  exact ⟨hid, rfl, rfl, rfl⟩

theorem service_of_lookup (h : data.globalSvcMap = some svcMap) {name : String}
    {r : ServiceRecord} (hr : svcMap.lookup name = some r) :
    ∃ svc ∈ data.services, svc.name = name ∧ svc.id = r.id := by
  obtain ⟨rfl, ⟨svc, hsvc, rfl⟩ | ⟨nodeToUds, -, comp, hcomp, svc, hsvc, hrecord⟩⟩ :=
    record_of_lookup h hr
  · exact ⟨svc, List.mem_append_left _ hsvc, rfl, rfl⟩
  · obtain ⟨id, -, rfl⟩ := Option.map_eq_some_iff.mp hrecord
    exact ⟨svc, List.mem_append_right _ (List.mem_flatMap.mpr ⟨comp, hcomp, hsvc⟩), rfl, rfl⟩

theorem record_eq_of_id (h : data.globalSvcMap = some svcMap) (hids : data.ServiceIdsDistinct)
    {name name' : String} {r r' : ServiceRecord} (hr : svcMap.lookup name = some r)
    (hr' : svcMap.lookup name' = some r') (hid : toUint32 r.id = toUint32 r'.id) : r = r' := by
  obtain ⟨svc, hsvc, rfl, hsvcId⟩ := service_of_lookup h hr
  obtain ⟨svc', hsvc', rfl, hsvcId'⟩ := service_of_lookup h hr'
  have hname : svc.name = svc'.name := hids svc hsvc svc' hsvc' (by rw [hsvcId, hsvcId', hid])
  rw [hname, hr'] at hr
  exact (Option.some.inj hr).symm

end

def SetOrder.insertion : SetOrder := ⟨List.dedup, fun _ => .refl _⟩

def allLoad : ℕ → ℕ → Option CompExport := fun _ _ => some ⟨false, true⟩

/-- Two nodes, each of which requires a service that the other provides. -/
def twoNodes (idS idT : ℤ) : ConfData where
  nodes := [⟨"A", some "a.sock", none, none, [⟨"W", ["X"]⟩]⟩,
    ⟨"B", some "b.sock", none, none, [⟨"W", ["Y"]⟩]⟩]
  components := [⟨"X", some 1, some "M", [⟨"T", idT, none⟩], ["S"]⟩,
    ⟨"Y", some 2, some "M", [⟨"S", idS, none⟩], ["T"]⟩]
  profiles := []
  models := [⟨"M", "libm.so"⟩]
  platform := []

/-- The node names, the component names and the service ids are distinct. -/
def ConfData.Distinct (data : ConfData) : Prop :=
  (data.nodes.map ConfNode.name).Nodup ∧ (data.components.map ConfComponent.name).Nodup ∧
    (data.services.map ConfService.id).Nodup

instance (data : ConfData) : Decidable data.Distinct := by
  unfold ConfData.Distinct
  infer_instance

end GeminiNOS

import GeminiNOS.Manifest.RouteAgreement

/-! # Dependencies are resolved

The generator collects the services that the components of a node provide or require, and
keeps those that it has a record for. It does not ask whether one is missing, nor whether
the component that a record names is placed on a node.
-/

namespace GeminiNOS

open Foundations

def ConfComponent.svcNames (comp : ConfComponent) : List String :=
  comp.provides.map ConfService.name ++ comp.requires

def ConfNode.Places (n : ConfNode) (compName : String) : Prop :=
  ∃ t ∈ n.threads, compName ∈ t.components

namespace ConfData

def Placed (data : ConfData) (compName : String) : Prop := ∃ n ∈ data.nodes, n.Places compName

/-- A component that is placed on a node provides or requires a service. -/
def Uses (data : ConfData) (n : ConfNode) (svcName : String) : Prop :=
  ∃ comp ∈ data.components, n.Places comp.name ∧ svcName ∈ comp.svcNames

/-- The components that provide a service, in the order of the configuration. -/
def providers (data : ConfData) (svcName : String) : List ConfComponent :=
  data.components.filter fun comp => svcName ∈ comp.provides.map ConfService.name

/-- A service of the platform, or of a component that is placed on some node. -/
def Provided (data : ConfData) (svcName : String) : Prop :=
  svcName ∈ data.platform.map ConfService.name ∨
    ∃ comp ∈ data.providers svcName, data.Placed comp.name

def MissesProvider (data : ConfData) : Prop :=
  ∃ n ∈ data.nodes, ∃ svcName, data.Uses n svcName ∧ ¬ data.Provided svcName

/-- The provider that a record names: the platform, or a component that provides the service and is
placed on some node. -/
def HasProvider (data : ConfData) (r : ServiceRecord) : Prop :=
  r.type = "embedded" ∧ r.name ∈ data.platform.map ConfService.name ∨
  r.type = "remote" ∧ ∃ comp ∈ data.providers r.name,
    comp.id = r.providerId ∧ data.Placed comp.name

/-- A node lists a service once, with a provider. -/
structure ResolvedOnce (data : ConfData) (node : ResolvedNode) (svcName : String) : Prop where
  once : node.resolvedServices.countP (·.name = svcName) = 1
  provider : ∃ r ∈ node.resolvedServices, r.name = svcName ∧ data.HasProvider r

/-- The law of dependencies: what the components of a node use is resolved, and a configuration that
misses a provider is rejected. -/
structure DependenciesResolved (data : ConfData) (order : SetOrder) : Prop where
  resolved : ∀ out, data.validateAndResolve order = some out → ∀ node ∈ out.1, ∀ svcName,
    data.Uses node.node svcName → data.ResolvedOnce node svcName
  rejected : data.MissesProvider → data.genManifest order = none

/-- The entry of a component that is not overwritten: the last one of its name. -/
def lastEntry (data : ConfData) (compName : String) : Option ConfComponent :=
  (data.components.filter (·.name = compName)).getLast?

/-- The last component entry that provides a service has the id of a component that provides it and
is placed. If there is none, the platform provides it. -/
def LastProviderPlaced (data : ConfData) (svcName : String) : Prop :=
  match (data.providers svcName).getLast? with
  | none => svcName ∈ data.platform.map ConfService.name
  | some last => ∃ comp ∈ data.providers svcName, comp.id = last.id ∧ data.Placed comp.name

/-- The condition on a configuration. What the components of a node use is also used by one of the
entries that are not overwritten, and has a last provider that is placed. -/
def ProvidesAll (data : ConfData) : Prop :=
  ∀ n ∈ data.nodes, ∀ svcName, data.Uses n svcName →
    (∃ compName, n.Places compName ∧ ∃ comp, data.lastEntry compName = some comp ∧
      svcName ∈ comp.svcNames) ∧
    data.LastProviderPlaced svcName

instance (n : ConfNode) (compName : String) : Decidable (n.Places compName) :=
  inferInstanceAs (Decidable (∃ t ∈ n.threads, compName ∈ t.components))

instance (data : ConfData) (compName : String) : Decidable (data.Placed compName) :=
  inferInstanceAs (Decidable (∃ n ∈ data.nodes, n.Places compName))

instance (data : ConfData) (svcName : String) : Decidable (data.Provided svcName) :=
  inferInstanceAs (Decidable (_ ∨ _))

instance (data : ConfData) (svcName : String) : Decidable (data.LastProviderPlaced svcName) := by
  unfold LastProviderPlaced
  split <;> infer_instance

variable {data : ConfData} {order : SetOrder} {svcName : String} {n : ConfNode}
  {svcMap : AList fun _ : String => ServiceRecord} {nodeToUds : AList fun _ : String => String}

theorem lookup_compMap_eq_lastEntry (data : ConfData) (compName : String) :
    data.compMap.lookup compName = data.lastEntry compName := by
  rw [compMap, lookup_dictOf_eq_getLast?, List.filter_map, ← List.getLast?_map, List.map_map]
  exact congrArg List.getLast? (List.map_id' _)

theorem lastEntry_name {compName : String} {comp : ConfComponent}
    (h : data.lastEntry compName = some comp) : comp ∈ data.components ∧ comp.name = compName := by
  obtain ⟨hmem, hname⟩ := List.mem_filter.mp (List.mem_of_getLast? h)
  exact ⟨hmem, of_decide_eq_true hname⟩

theorem mem_neededSvcNames : svcName ∈ data.neededSvcNames n ↔
    ∃ compName, n.Places compName ∧ ∃ comp, data.lastEntry compName = some comp ∧
      svcName ∈ comp.svcNames := by
  simp only [neededSvcNames, List.mem_flatMap, lookup_compMap_eq_lastEntry, ConfNode.Places]
  refine exists_congr fun compName => and_congr_right fun _ => ?_
  cases data.lastEntry compName with
  | none => simp
  | some comp => simp [ConfComponent.svcNames]

/-- The record of a service comes from the last component that provides it, if there is one. -/
theorem last_providerRecords {records : List ServiceRecord}
    (h : data.providerRecords nodeToUds = some records) (svcName : String) :
    (data.providers svcName = [] ∧ records.filter (·.name = svcName) = []) ∨
    ∃ last r, (data.providers svcName).getLast? = some last ∧
      (records.filter (·.name = svcName)).getLast? = some r ∧
      r.type = "remote" ∧ r.providerId = last.id := by
  let pairs := fun comp : ConfComponent =>
    (comp.provides.map (comp, ·)).filter fun p => p.2.name = svcName
  have howner := getLast?_flatMap_owner pairs Prod.fst (fun comp p hp => by
    obtain ⟨svc, -, rfl⟩ := List.mem_map.mp (List.mem_of_mem_filter hp)
    rfl) data.components
  have hproviders : (data.components.filter fun comp => pairs comp ≠ []) =
      data.providers svcName := by
    refine List.filter_congr fun comp _ => decide_eq_decide.mpr ?_
    simp [pairs, List.filter_eq_nil_iff]
  rw [hproviders] at howner
  have hall : ∀ p ∈ data.components.flatMap fun comp => comp.provides.map (comp, ·),
      (data.providerRecord nodeToUds p.1 p.2).any (fun r => r.name = svcName) =
        decide (p.2.name = svcName) := by
    intro p hp
    obtain ⟨r, -, hr⟩ := mem_mapM_of_mem h hp
    obtain ⟨id, -, rfl⟩ := Option.map_eq_some_iff.mp hr
    rw [hr, Option.any_some]
  have hlast := getLast?_filter_mapM h fun r => r.name = svcName
  rw [List.filter_congr hall, List.filter_flatMap] at hlast
  cases hp : (data.components.flatMap pairs).getLast? with
  | none =>
    rw [hp, Option.map_none] at hlast howner
    exact .inl ⟨List.getLast?_eq_none_iff.mp howner.symm,
      List.getLast?_eq_none_iff.mp (Option.map_eq_none_iff.mp hlast)⟩
  | some p =>
    rw [hp, Option.map_some] at hlast howner
    obtain ⟨r, hr, hrecord⟩ := Option.map_eq_some_iff.mp hlast
    obtain ⟨id, hid, rfl⟩ := Option.map_eq_some_iff.mp hrecord.symm
    exact .inr ⟨p.1, _, howner.symm, hr, rfl, hid.symm⟩

theorem lookup_globalSvcMap (h : data.globalSvcMap = some svcMap) (svcName : String) :
    (∃ last r, (data.providers svcName).getLast? = some last ∧ svcMap.lookup svcName = some r ∧
      r.type = "remote" ∧ r.providerId = last.id) ∨
    data.providers svcName = [] ∧
      ((svcName ∈ data.platform.map ConfService.name ∧
        ∃ r, svcMap.lookup svcName = some r ∧ r.type = "embedded") ∨
      svcName ∉ data.platform.map ConfService.name ∧ svcMap.lookup svcName = none) := by
  obtain ⟨nodeToUds, -, h⟩ := Option.bind_eq_some_iff.mp h
  obtain ⟨records, hrecords, h⟩ := Option.bind_eq_some_iff.mp h
  obtain rfl := Option.some.inj h
  have hlookup : (dictOf ((data.platform.map platformRecord ++ records).map fun r =>
      (r.name, r))).lookup svcName = ((records.filter (·.name = svcName)).getLast?).or
        (((data.platform.map platformRecord).filter (·.name = svcName)).getLast?) := by
    rw [lookup_dictOf_eq_getLast?, List.filter_map, ← List.getLast?_map, List.map_map,
      ← List.getLast?_append, ← List.filter_append]
    exact congrArg List.getLast? (List.map_id' _)
  rcases last_providerRecords hrecords svcName with ⟨hnone, hempty⟩ | ⟨last, r, hlast, hr, hrest⟩
  · refine .inr ⟨hnone, ?_⟩
    rw [hlookup, hempty, List.getLast?_nil, Option.none_or]
    cases hp : ((data.platform.map platformRecord).filter (·.name = svcName)).getLast? with
    | none =>
      refine .inr ⟨fun hmem => ?_, rfl⟩
      obtain ⟨svc, hsvc, rfl⟩ := List.mem_map.mp hmem
      have hnil := List.getLast?_eq_none_iff.mp hp
      have hrecord : platformRecord svc ∈ data.platform.map platformRecord :=
        List.mem_map_of_mem hsvc
      have hkeep := List.filter_eq_nil_iff.mp hnil _ hrecord
      exact hkeep (decide_eq_true rfl)
    | some r =>
      obtain ⟨hmem, hname⟩ := List.mem_filter.mp (List.mem_of_getLast? hp)
      obtain ⟨svc, hsvc, rfl⟩ := List.mem_map.mp hmem
      exact .inl ⟨List.mem_map.mpr ⟨svc, hsvc, of_decide_eq_true hname⟩, _, rfl, rfl⟩
  · refine .inl ⟨last, r, hlast, ?_, hrest⟩
    rw [hlookup, hr, Option.some_or]

/-- The record that the dictionary has names a provider if and only if the last provider is
placed. -/
theorem hasProvider_iff (h : data.globalSvcMap = some svcMap) :
    (∃ r, svcMap.lookup svcName = some r ∧ data.HasProvider r) ↔
      data.LastProviderPlaced svcName := by
  have hname : ∀ r, svcMap.lookup svcName = some r → r.name = svcName :=
    fun r hr => (record_of_lookup h hr).1
  unfold LastProviderPlaced
  rcases lookup_globalSvcMap h svcName with
    ⟨last, r, hlast, hr, htype, hid⟩ | ⟨hnone, ⟨hmem, r, hr, htype⟩ | ⟨hmem, hr⟩⟩
  · rw [hlast, hr]
    simp [HasProvider, htype, hname r hr, hid]
  · rw [hnone, hr]
    exact iff_of_true ⟨r, rfl, .inl ⟨htype, (hname r hr).symm ▸ hmem⟩⟩ hmem
  · rw [hnone, hr]
    exact iff_of_false (by simp) hmem

theorem validateAndResolve_eq_some
    {out : List ResolvedNode × (AList fun _ : String => ℤ) × AList fun _ : String => ℤ}
    (h : data.validateAndResolve order = some out) : ∃ svcMap, data.globalSvcMap = some svcMap ∧
      data.nodes.mapM (data.resolveNode order svcMap) = some out.1 ∧
      data.compIds = some out.2.1 ∧ out.2.2 = data.svcNameToId := by
  obtain ⟨svcMap, hsvcMap, h⟩ := Option.bind_eq_some_iff.mp h
  obtain ⟨nodes, hnodes, h⟩ := Option.bind_eq_some_iff.mp h
  obtain ⟨compIds, hids, h⟩ := Option.bind_eq_some_iff.mp h
  obtain rfl := Option.some.inj h
  exact ⟨svcMap, hsvcMap, hnodes, hids, rfl⟩

theorem countP_resolvedServices {node : ResolvedNode} {r : ServiceRecord}
    (h : data.globalSvcMap = some svcMap)
    (hnode : data.resolveNode order svcMap n = some node)
    (hneeded : svcName ∈ data.neededSvcNames n) (hr : svcMap.lookup svcName = some r) :
    node.resolvedServices.countP (·.name = svcName) = 1 := by
  rw [(resolveNode_eq_some hnode).2.2]
  exact countP_filterMap_eq_one (fun s r hr => (record_of_lookup h hr).1)
    ((order.perm _).nodup_iff.mpr (List.nodup_dedup _)) (order.mem_toList.mpr hneeded) hr

/-- A node has a record with a provider for what it needs if and only if the last provider of that
is placed. -/
theorem resolvedOnce_iff {node : ResolvedNode} (h : data.globalSvcMap = some svcMap)
    (hnode : data.resolveNode order svcMap n = some node) :
    data.ResolvedOnce node svcName ↔
      svcName ∈ data.neededSvcNames n ∧ data.LastProviderPlaced svcName := by
  rw [← hasProvider_iff h]
  constructor
  · rintro ⟨-, r, hr, rfl, hprovider⟩
    rw [(resolveNode_eq_some hnode).2.2] at hr
    obtain ⟨name, hneeded, hr⟩ := List.mem_filterMap.mp hr
    obtain rfl := (record_of_lookup h hr).1
    exact ⟨order.mem_toList.mp hneeded, r, hr, hprovider⟩
  · rintro ⟨hneeded, r, hr, hprovider⟩
    refine ⟨countP_resolvedServices h hnode hneeded hr, r, ?_, (record_of_lookup h hr).1, hprovider⟩
    rw [(resolveNode_eq_some hnode).2.2]
    exact List.mem_filterMap.mpr ⟨svcName, order.mem_toList.mpr hneeded, hr⟩

theorem provided_of_lastProviderPlaced (h : data.LastProviderPlaced svcName) :
    data.Provided svcName := by
  unfold LastProviderPlaced at h
  split at h
  · exact .inl h
  · obtain ⟨comp, hcomp, -, hplaced⟩ := h
    exact .inr ⟨comp, hcomp, hplaced⟩

/-- A configuration that the generator accepts has its dependencies resolved if and only if it meets
the condition. -/
theorem dependenciesResolved_iff {ms : List NodeManifest}
    (haccepted : data.genManifest order = some ms) :
    data.DependenciesResolved order ↔ data.ProvidesAll := by
  obtain ⟨out, hout, -⟩ := Option.bind_eq_some_iff.mp haccepted
  obtain ⟨svcMap, hsvcMap, hnodes, -⟩ := validateAndResolve_eq_some hout
  constructor
  · intro h n hn svcName huses
    obtain ⟨node, hnode, hn⟩ := mem_mapM_of_mem hnodes hn
    obtain rfl := (resolveNode_eq_some hn).1
    rw [← mem_neededSvcNames]
    exact (resolvedOnce_iff hsvcMap hn).mp (h.resolved _ hout node hnode svcName huses)
  · intro h
    refine ⟨fun out' hout' node hnode svcName huses => ?_, ?_⟩
    · obtain rfl := Option.some.inj (hout.symm.trans hout')
      obtain ⟨n, hn, hresolve⟩ := exists_of_mem_mapM hnodes hnode
      obtain rfl := (resolveNode_eq_some hresolve).1
      rw [resolvedOnce_iff hsvcMap hresolve, mem_neededSvcNames]
      exact h node.node hn svcName huses
    · rintro ⟨n, hn, svcName, huses, hmissing⟩
      exact absurd (provided_of_lastProviderPlaced (h n hn svcName huses).2) hmissing

end ConfData

/-- A node with one component, which requires a service, and another component, which provides it
and is on no node. -/
def unplacedProvider : ConfData where
  nodes := [⟨"A", some "a.sock", none, none, [⟨"W", ["X"]⟩]⟩]
  components := [⟨"X", some 1, some "M", [], ["S"]⟩, ⟨"Y", some 2, some "M", [⟨"S", 7, none⟩], []⟩]
  profiles := []
  models := [⟨"M", "libm.so"⟩]
  platform := []

theorem dependenciesResolved_twoNodes : (twoNodes 7 8).DependenciesResolved .insertion := by
  have haccepted : (twoNodes 7 8).genManifest .insertion =
      some (((twoNodes 7 8).genManifest .insertion).get rfl) := rfl
  refine (ConfData.dependenciesResolved_iff haccepted).mpr ?_
  rintro n hn svcName ⟨comp, hcomp, hplaces, hsvc⟩
  simp only [twoNodes, List.mem_cons, List.not_mem_nil, or_false] at hn hcomp
  rcases hn with rfl | rfl <;> rcases hcomp with rfl | rfl
  · exact ⟨⟨"X", hplaces, _, rfl, hsvc⟩, by revert svcName; decide⟩
  · exact absurd hplaces (by decide)
  · exact absurd hplaces (by decide)
  · exact ⟨⟨"Y", hplaces, _, rfl, hsvc⟩, by revert svcName; decide⟩

/-- The generator accepts a configuration in which the provider of a service is on no node. -/
theorem not_dependenciesResolved_unplaced :
    (unplacedProvider.genManifest .insertion).isSome ∧
      ¬ unplacedProvider.DependenciesResolved .insertion := by
  refine ⟨rfl, fun h => ?_⟩
  have hrejected := h.rejected ⟨_, .head _, "S", ?_, ?_⟩
  · cases hrejected
  · exact ⟨_, .head _, by decide, by decide⟩
  · decide

end GeminiNOS

import GeminiNOS.Component.Routing
import GeminiNOS.Manifest.LoaderArrays

/-! # What a configuration deploys

A configuration places components on the threads of nodes, and says which services they provide
and require. The generator compiles it to a manifest for each node, and each node loads its
components and sets up its registry from its own manifest. In the end every node sends what its
components use to where the configuration has placed the provider: to the instance in its thread,
or to the node of that.
-/

namespace GeminiNOS

open Foundations

def ConfNode.componentAt (n : ConfNode) (t j : ℕ) : Option String :=
  n.threads[t]?.bind fun thread => thread.components[j]?

namespace ConfData

/-- A service is provided by a component that is placed on a node, at a position of a thread. -/
structure ProvidedAt (data : ConfData) (svc : ConfService) (comp : ConfComponent) (n : ConfNode)
    (t j : ℕ) : Prop where
  node : n ∈ data.nodes
  component : comp ∈ data.components
  provides : svc ∈ comp.provides
  place : n.componentAt t j = some comp.name

/-- The names and the ids are distinct, no component has two places, and what a node has and uses
fits its tables. -/
structure Deployable (data : ConfData) : Prop where
  nodeNames : (data.nodes.map ConfNode.name).Nodup
  named : ∀ n ∈ data.nodes, n.name ≠ ""
  paths : ∀ n ∈ data.nodes, n.udsPath ≠ some ""
  components : (data.components.map ConfComponent.name).Nodup
  componentIds : ∀ comp ∈ data.components, ∀ comp' ∈ data.components,
    comp.id.map toUint32 = comp'.id.map toUint32 → comp.name = comp'.name
  services : (data.services.map ConfService.name).Nodup
  serviceIds : data.ServiceIdsDistinct
  places : (data.nodes.flatMap fun n => n.threads.flatMap ConfThread.components).Nodup
  fits : ∀ n ∈ data.nodes, data.NodeFits n
  few : ∀ n ∈ data.nodes, (data.neededSvcNames n).dedup.length ≤ maxServices

/-- A node whose registry leads every service that it uses to where the configuration has placed
the provider, and has no other entries. Only a provider whose load fails is not bound. -/
structure Deployed (data : ConfData) (n : ConfNode) (m : NodeManifest)
    (loads : ℕ → ℕ → Option CompExport) : Prop where
  loader : m.nodeInitWorkers loads = some ((CompNode.zero m.nodeDef).nodeInitWorkers loads)
  bound : ∀ svc comp t j, data.ProvidedAt svc comp n t j → (loads t j).isSome →
    ∃ x, BoundTo (m.registry loads) (toUint32 svc.id) x t ∧
      ((UnloadNode.startup m.nodeDef loads).comps x).name = comp.name
  failed : ∀ svc comp t j, data.ProvidedAt svc comp n t j → loads t j = none →
    (m.registry loads).findServiceEntry (toUint32 svc.id) = none
  routed : ∀ svc comp n' t j, data.ProvidedAt svc comp n' t j → n' ≠ n → data.Uses n svc.name →
    ∃ udsPath, n'.udsPath = some udsPath ∧
      RoutedTo (m.registry loads) (toUint32 svc.id) n'.name udsPath
  other : ∀ id, (m.registry loads).findServiceEntry id ≠ none →
    ∃ svc comp n' t j, data.ProvidedAt svc comp n' t j ∧ data.Uses n svc.name ∧
      toUint32 svc.id = id

variable {data : ConfData} {order : SetOrder} {n n' : ConfNode} {m : NodeManifest}
  {node : ResolvedNode} {svcMap : AList fun _ : String => ServiceRecord} {svc : ConfService}
  {comp : ConfComponent} {t j : ℕ} {compName : String} {loads : ℕ → ℕ → Option CompExport}

theorem ProvidedAt.places (h : data.ProvidedAt svc comp n t j) : n.Places comp.name := by
  obtain ⟨thread, hthread, hj⟩ := Option.bind_eq_some_iff.mp h.place
  exact ⟨thread, List.mem_of_getElem? hthread, List.mem_of_getElem? hj⟩

theorem exists_place (h : n.Places compName) : ∃ t j, n.componentAt t j = some compName := by
  obtain ⟨thread, hthread, hmem⟩ := h
  obtain ⟨t, ht⟩ := List.mem_iff_getElem?.mp hthread
  obtain ⟨j, hj⟩ := List.mem_iff_getElem?.mp hmem
  refine ⟨t, j, ?_⟩
  rw [ConfNode.componentAt, ht]
  exact hj

theorem mem_components_of_places (h : n.Places compName) :
    compName ∈ n.threads.flatMap ConfThread.components := List.mem_flatMap.mpr h

theorem Deployable.node_unique (h : data.Deployable) (hn : n ∈ data.nodes) (hn' : n' ∈ data.nodes)
    (hplace : n.Places compName) (hplace' : n'.Places compName) : n = n' := by
  by_contra hne
  have hdisjoint := (List.nodup_flatMap.mp h.places).2
  have : Std.Symm (Function.onFun List.Disjoint fun n : ConfNode =>
      n.threads.flatMap ConfThread.components) := ⟨fun _ _ hd => hd.symm⟩
  exact hdisjoint.forall hn hn' hne (mem_components_of_places hplace)
    (mem_components_of_places hplace')

theorem Deployable.position_unique (h : data.Deployable) (hn : n ∈ data.nodes) {t' j' : ℕ}
    (hplace : n.componentAt t j = some compName)
    (hplace' : n.componentAt t' j' = some compName) :
    t = t' ∧ j = j' := by
  obtain ⟨thread, hthread, hj⟩ := Option.bind_eq_some_iff.mp hplace
  obtain ⟨thread', hthread', hj'⟩ := Option.bind_eq_some_iff.mp hplace'
  obtain ⟨hnodup, hdisjoint⟩ :=
    List.nodup_flatMap.mp ((List.nodup_flatMap.mp h.places).1 n hn)
  have hmem := List.mem_of_getElem? hj
  have hmem' := List.mem_of_getElem? hj'
  obtain ⟨hlt, rfl⟩ := List.getElem?_eq_some_iff.mp hthread
  obtain ⟨hlt', rfl⟩ := List.getElem?_eq_some_iff.mp hthread'
  rw [List.pairwise_iff_getElem] at hdisjoint
  rcases Nat.lt_trichotomy t t' with hlt'' | rfl | hlt''
  · exact absurd hmem' (hdisjoint t t' hlt hlt' hlt'' hmem)
  · refine ⟨rfl, (List.getElem?_inj ?_ (hnodup _ (List.getElem_mem hlt))).mp (hj.trans hj'.symm)⟩
    exact (List.getElem?_eq_some_iff.mp hj).1
  · exact absurd hmem (hdisjoint t' t hlt' hlt hlt'' hmem')

theorem names_compDefs {thread : ConfThread}
    (h : ∀ compName ∈ thread.components, ∃ rc, data.resolveComponent compName = some rc) :
    (data.compDefs thread).map CompDef.name = thread.components := by
  unfold compDefs
  revert h
  induction thread.components with
  | nil => exact fun _ => rfl
  | cons compName names ih =>
    intro h
    obtain ⟨rc, hrc⟩ := h compName List.mem_cons_self
    rw [List.filterMap_cons, hrc, Option.map_some, List.map_cons,
      ih fun name hname => h name (List.mem_cons_of_mem _ hname)]
    exact congrArg (· :: names) (resolveComponent_eq_some hrc).1

theorem mem_configured {d : CompDef × ℕ} : d ∈ data.configured n loads ↔
    ∃ j, (n.threads[d.2]?.bind fun thread => (data.compDefs thread)[j]?) = some d.1 ∧
      (loads d.2 j).isSome := by
  simp only [configured, List.mem_flatMap, CompNode.enteredThread, List.mem_map, List.mem_filter]
  constructor
  · rintro ⟨⟨cs, t⟩, hcs, ⟨c, j⟩, ⟨hc, hload⟩, rfl⟩
    rw [List.mk_mem_zipIdx_iff_getElem?, List.getElem?_map, Option.map_eq_some_iff] at hcs
    obtain ⟨thread, hthread, rfl⟩ := hcs
    refine ⟨j, ?_, hload⟩
    rw [hthread]
    exact List.mk_mem_zipIdx_iff_getElem?.mp hc
  · rintro ⟨j, hplace, hload⟩
    obtain ⟨thread, hthread, hj⟩ := Option.bind_eq_some_iff.mp hplace
    refine ⟨(data.compDefs thread, d.2), ?_, (d.1, j), ⟨?_, hload⟩, rfl⟩
    · rw [List.mk_mem_zipIdx_iff_getElem?, List.getElem?_map, hthread]
      rfl
    · exact List.mk_mem_zipIdx_iff_getElem?.mpr hj

theorem names_configured_sublist (data : ConfData) (threads : List ConfThread) (k : ℕ)
    (loads : ℕ → ℕ → Option CompExport) : List.Sublist
      ((((threads.map data.compDefs).zipIdx k).flatMap fun td =>
        CompNode.enteredThread td.2 td.1.zipIdx (loads td.2)).map fun d => d.1.name)
      (threads.flatMap fun thread => (data.compDefs thread).map CompDef.name) := by
  induction threads generalizing k with
  | nil => exact List.Sublist.refl _
  | cons thread threads ih =>
    rw [List.map_cons, List.zipIdx_cons, List.flatMap_cons, List.map_append, List.flatMap_cons]
    refine List.Sublist.append ?_ (ih (k + 1))
    rw [CompNode.enteredThread, List.map_map]
    conv_rhs => rw [← List.zipIdx_map_fst 0 (data.compDefs thread), List.map_map]
    exact List.filter_sublist.map _

/-- A node with what the generator resolves for it, and its manifest. -/
structure Generated (data : ConfData) (order : SetOrder)
    (svcMap : AList fun _ : String => ServiceRecord) (n : ConfNode) (m : NodeManifest) : Prop where
  records : data.globalSvcMap = some svcMap
  node : n ∈ data.nodes
  generated : ∃ rn, data.resolveNode order svcMap n = some rn ∧ generateNodeManifest rn = some m

theorem Generated.manifestOf (hg : data.Generated order svcMap n m) :
    ManifestOf data svcMap n m := by
  obtain ⟨rn, hrn, hm⟩ := hg.generated
  exact GeminiNOS.manifestOf hrn hm

theorem Generated.threads (hg : data.Generated order svcMap n m) :
    m.nodeDef.threads = n.threads.map data.compDefs := by
  obtain ⟨rn, hrn, hm⟩ := hg.generated
  exact threads_of_generate hrn hm

theorem Generated.resolves (hg : data.Generated order svcMap n m) {thread : ConfThread}
    (ht : thread ∈ n.threads) :
    (data.compDefs thread).length = thread.components.length ∧
      (data.compDefs thread).map CompDef.name = thread.components := by
  obtain ⟨rn, hrn, -⟩ := hg.generated
  obtain ⟨hlen, hall⟩ := exists_of_resolveNode hrn ht
  exact ⟨hlen, names_compDefs hall⟩

theorem Generated.entered_eq (hg : data.Generated order svcMap n m) (hfits : data.NodeFits n)
    (loads : ℕ → ℕ → Option CompExport) :
    CompNode.entered m.nodeDef loads = data.configured n loads :=
  entered_of_nodeFits hfits hg.threads (fun _ ht => (hg.resolves ht).1) loads

theorem Generated.place_of_configured (hg : data.Generated order svcMap n m) {d : CompDef × ℕ}
    (hd : d ∈ data.configured n loads) : ∃ comp ∈ data.components, ∃ j,
      n.componentAt d.2 j = some comp.name ∧
      d.1.name = comp.name ∧ comp.id.map toUint32 = some d.1.id ∧ (loads d.2 j).isSome := by
  obtain ⟨j, hplace, hload⟩ := mem_configured.mp hd
  obtain ⟨thread, hthread, hj⟩ := Option.bind_eq_some_iff.mp hplace
  obtain ⟨compName, -, rc, hrc, hc⟩ := mem_compDefs.mp (List.mem_of_getElem? hj)
  obtain ⟨hname, comp, hlookup, hid⟩ := resolveComponent_eq_some hrc
  rw [lookup_compMap_eq_lastEntry] at hlookup
  obtain ⟨hcomp, rfl⟩ := lastEntry_name hlookup
  have hdname : d.1.name = comp.name := by
    rw [← hc]
    exact hname
  refine ⟨comp, hcomp, j, ?_, hdname, ?_, hload⟩
  · rw [ConfNode.componentAt, hthread, Option.bind_some,
      ← (hg.resolves (List.mem_of_getElem? hthread)).2, List.getElem?_map, hj, Option.map_some,
      hdname]
  · rw [hid, ← hc]
    rfl

/-- The components of a node are distinct, and all fit its table. -/
theorem Generated.fitting (h : data.Deployable) (hg : data.Generated order svcMap n m)
    (loads : ℕ → ℕ → Option CompExport) : CompNode.Fitting (data.configured n loads) := by
  have hnames : ((data.configured n loads).map fun d => d.1.name).Nodup := by
    refine (names_configured_sublist data n.threads 0 loads).nodup ?_
    rw [List.flatMap_congr fun thread ht => (hg.resolves ht).2]
    exact (List.nodup_flatMap.mp h.places).1 n hg.node
  constructor
  · refine hnames.of_map.map_on fun d hd d' hd' hid => ?_
    obtain ⟨comp, hcomp, -, -, hname, hcid, -⟩ := hg.place_of_configured hd
    obtain ⟨comp', hcomp', -, -, hname', hcid', -⟩ := hg.place_of_configured hd'
    have hsame := h.componentIds comp hcomp comp' hcomp' (by rw [hcid, hcid', hid])
    exact List.inj_on_of_nodup_map hnames hd hd' (by rw [hname, hname', hsame])
  · refine le_trans (CompNode.length_entered_le _ 0 loads) ?_
    rw [sum_length_compDefs fun _ ht => (hg.resolves ht).1]
    exact (h.fits n hg.node).total

theorem Generated.configured_of_place (h : data.Deployable)
    (hg : data.Generated order svcMap n m) (hcomp : comp ∈ data.components)
    (hplace : n.componentAt t j = some comp.name)
    (hload : (loads t j).isSome) :
    ∃ c, (c, t) ∈ data.configured n loads ∧ c.name = comp.name ∧
      comp.id.map toUint32 = some c.id := by
  obtain ⟨thread, hthread, hj⟩ := Option.bind_eq_some_iff.mp hplace
  have hnames := (hg.resolves (List.mem_of_getElem? hthread)).2
  rw [← hnames, List.getElem?_map, Option.map_eq_some_iff] at hj
  obtain ⟨c, hc, hname⟩ := hj
  have hmem : (c, t) ∈ data.configured n loads := by
    refine mem_configured.mpr ⟨j, ?_, hload⟩
    rw [hthread]
    exact hc
  obtain ⟨comp', hcomp', -, -, hname', hid, -⟩ := hg.place_of_configured hmem
  have hsame : comp' = comp :=
    List.inj_on_of_nodup_map h.components hcomp' hcomp (hname'.symm.trans hname)
  exact ⟨c, hmem, hname, hsame ▸ hid⟩

theorem Generated.not_configured_of_place (h : data.Deployable)
    (hg : data.Generated order svcMap n m) (hcomp : comp ∈ data.components) {id : ℤ}
    (hid : comp.id = some id)
    (hplace : n.componentAt t j = some comp.name)
    (hload : loads t j = none) : ∀ d ∈ data.configured n loads, d.1.id ≠ toUint32 id := by
  intro d hd he
  obtain ⟨comp', hcomp', j', hplace', -, hid', hload'⟩ := hg.place_of_configured hd
  have hsame := h.componentIds comp hcomp comp' hcomp' (by rw [hid, hid', he, Option.map_some])
  rw [← hsame] at hplace'
  obtain ⟨rfl, rfl⟩ := h.position_unique hg.node hplace hplace'
  rw [hload] at hload'
  cases hload'

theorem Generated.thread_le (h : data.Deployable) (hg : data.Generated order svcMap n m)
    (loads : ℕ → ℕ → Option CompExport) (t : ℕ) :
    ((data.configured n loads).filter fun d => d.2 = t).length ≤ maxCompPerThread := by
  refine CompNode.length_filter_flatMap_le
    (fun td d hd => CompNode.thread_of_mem_enteredThread hd) (fun td htd => ?_) t
  obtain ⟨thread, ht, hcs⟩ := List.mem_map.mp (List.fst_mem_of_mem_zipIdx htd)
  have hle := CompNode.length_enteredThread_le td.2 td.1.zipIdx (loads td.2)
  have hfew := ((h.fits n hg.node).comps thread ht).2
  have hbound : maxThreadComps ≤ maxCompPerThread := by decide
  rw [List.length_zipIdx, ← hcs, (hg.resolves ht).1] at hle
  rw [← hcs]
  omega

theorem Generated.enters (h : data.Deployable) (hg : data.Generated order svcMap n m)
    (loads : ℕ → ℕ → Option CompExport) :
    ((CompNode.zero m.nodeDef).nodeInitWorkers loads).Enters (data.configured n loads) := by
  rw [← hg.entered_eq (h.fits n hg.node)]
  exact CompNode.enters_nodeInitWorkers m.nodeDef loads

/-- The loop over the services finds a component that is configured, and its thread. -/
theorem Generated.finds (h : data.Deployable) (hg : data.Generated order svcMap n m) {x : ℕ}
    {d : CompDef × ℕ} (hx : (data.configured n loads)[x]? = some d) :
    let s := (CompNode.zero m.nodeDef).nodeInitWorkers loads
    s.nodeGetLoadedCompById d.1.id = some x ∧ s.ownerWorker d.1.id = some d.2 := by
  have henters := hg.enters h loads
  have hfitting := hg.fitting h loads
  refine ⟨henters.nodeGetLoadedCompById_eq hfitting hx, ?_⟩
  refine henters.ownerWorker_eq hfitting (hg.thread_le h loads d.2) ?_ hx
  obtain ⟨j, hplace, -⟩ := mem_configured.mp (List.mem_of_getElem? hx)
  obtain ⟨thread, hthread, -⟩ := Option.bind_eq_some_iff.mp hplace
  have hlt := (List.getElem?_eq_some_iff.mp hthread).1
  have hworkers : maxThreads ≤ maxWorkers := le_rfl
  have hfew := (h.fits n hg.node).threads
  rw [CompNode.workerCount_nodeInitWorkers, hg.threads, List.length_take, List.length_map]
  omega

theorem Generated.finds_none (h : data.Deployable) (hg : data.Generated order svcMap n m) {id : ℕ}
    (hnot : ∀ d ∈ data.configured n loads, d.1.id ≠ id) :
    ((CompNode.zero m.nodeDef).nodeInitWorkers loads).nodeGetLoadedCompById id = none :=
  (hg.enters h loads).nodeGetLoadedCompById_none hnot

theorem names_providerRecords {nodeToUds : AList fun _ : String => String}
    {records : List ServiceRecord} (hrecords : data.providerRecords nodeToUds = some records) :
    records.map ServiceRecord.name =
      (data.components.flatMap ConfComponent.provides).map ConfService.name := by
  have hpairs : (data.components.flatMap fun comp => comp.provides.map (comp, ·)).map
      (fun p => p.2.name) = (data.components.flatMap ConfComponent.provides).map
        ConfService.name := by
    rw [List.map_flatMap, List.map_flatMap]
    refine List.flatMap_congr fun comp _ => ?_
    rw [List.map_map]
    rfl
  rw [← hpairs, ← List.forall₂_eq_eq_eq, List.forall₂_map_left_iff, List.forall₂_map_right_iff]
  refine (forall₂_of_mapM hrecords).flip.imp fun r p hr => ?_
  exact (providerRecord_eq_some hr).2.1

theorem Deployable.lookup_record (h : data.Deployable) (hsvcMap : data.globalSvcMap = some svcMap)
    (hcomp : comp ∈ data.components) (hsvc : svc ∈ comp.provides) :
    ∃ nodeToUds r, data.nodeToUds = some nodeToUds ∧
      data.providerRecord nodeToUds comp svc = some r ∧ svcMap.lookup svc.name = some r := by
  obtain ⟨nodeToUds, hnodeToUds, hsvcMap⟩ := Option.bind_eq_some_iff.mp hsvcMap
  obtain ⟨records, hrecords, hsvcMap⟩ := Option.bind_eq_some_iff.mp hsvcMap
  obtain rfl := Option.some.inj hsvcMap
  have hpair : (comp, svc) ∈ data.components.flatMap fun comp => comp.provides.map (comp, ·) :=
    List.mem_flatMap.mpr ⟨comp, hcomp, List.mem_map_of_mem hsvc⟩
  obtain ⟨r, hr, hrecord⟩ := mem_mapM_of_mem hrecords hpair
  refine ⟨nodeToUds, r, hnodeToUds, hrecord, lookup_dictOf ?_ ?_⟩
  · rw [List.map_map, List.map_append]
    have hnames := h.services
    rw [ConfData.services, List.map_append, ← names_providerRecords hrecords] at hnames
    convert hnames using 1
    rw [List.map_map]
    rfl
  · rw [← (providerRecord_eq_some hrecord).2.1]
    exact List.mem_map.mpr ⟨r, List.mem_append_right _ hr, rfl⟩

theorem Deployable.lookup_compToNode (h : data.Deployable) (hp : data.ProvidedAt svc comp n t j) :
    data.compToNode.lookup comp.name = some n.name := by
  obtain ⟨nodeName, hlookup⟩ := exists_lookup_compToNode h.components hp.component
    ⟨n, hp.node, hp.places⟩
  obtain ⟨n', hn', rfl, hplaces⟩ := placed_of_lookup_compToNode hlookup
  rw [hlookup, h.node_unique hp.node hn' hp.places hplaces]

theorem Deployable.record_of_providedAt (h : data.Deployable)
    (hsvcMap : data.globalSvcMap = some svcMap) (hp : data.ProvidedAt svc comp n t j) :
    ∃ id udsPath, comp.id = some id ∧ n.udsPath = some udsPath ∧ udsPath ≠ "" ∧
      svcMap.lookup svc.name =
        some ⟨svc.name, svc.id, "remote", some id, n.name, some udsPath⟩ := by
  obtain ⟨nodeToUds, r, hnodeToUds, hrecord, hlookup⟩ :=
    h.lookup_record hsvcMap hp.component hp.provides
  obtain ⟨id, hid, rfl⟩ := Option.map_eq_some_iff.mp hrecord
  have hpath := lookup_nodeToUds h.nodeNames hnodeToUds hp.node
  obtain ⟨entries, hentries, -⟩ := Option.map_eq_some_iff.mp hnodeToUds
  obtain ⟨entry, -, hentry⟩ := mem_mapM_of_mem hentries hp.node
  obtain ⟨udsPath, hudsPath, -⟩ := Option.map_eq_some_iff.mp hentry
  refine ⟨id, udsPath, hid, hudsPath, fun he => h.paths n hp.node (he ▸ hudsPath), ?_⟩
  rw [hlookup, h.lookup_compToNode hp, Option.getD_some, Option.getD_some, hpath, hudsPath,
    Option.getD_some]

/-- A service that a node uses is needed there. -/
theorem Deployable.needed_of_uses (h : data.Deployable) {svcName : String}
    (huses : data.Uses n svcName) : svcName ∈ data.neededSvcNames n := by
  obtain ⟨comp, hcomp, hplaces, hsvc⟩ := huses
  refine mem_neededSvcNames.mpr ⟨comp.name, hplaces, comp, ?_, hsvc⟩
  rw [← lookup_compMap_eq_lastEntry]
  exact lookup_compMap h.components hcomp

theorem uses_of_needed {svcName : String} (hneeded : svcName ∈ data.neededSvcNames n) :
    data.Uses n svcName := by
  obtain ⟨compName, hplaces, comp, hlast, hsvc⟩ := mem_neededSvcNames.mp hneeded
  obtain ⟨hcomp, rfl⟩ := lastEntry_name hlast
  exact ⟨comp, hcomp, hplaces, hsvc⟩

theorem ProvidedAt.uses (hp : data.ProvidedAt svc comp n t j) : data.Uses n svc.name :=
  ⟨comp, hp.component, hp.places,
    List.mem_append_left _ (List.mem_map_of_mem hp.provides)⟩

theorem Generated.services (h : data.Deployable) (hg : data.Generated order svcMap n m) :
    (m.nodeDef.services.map NosServiceDef.serviceId).Nodup ∧
      m.nodeDef.services.length ≤ maxServices := by
  obtain ⟨rn, hrn, hm⟩ := hg.generated
  have hservices : m.nodeDef.services = ((order.toList (data.neededSvcNames n)).filterMap
      svcMap.lookup).map fun r => r.toManifest.serviceDef := by
    rw [NodeManifest.nodeDef, (generateNodeManifest_eq_some hm).2.2.2,
      (resolveNode_eq_some hrn).2.2, List.map_map]
    rfl
  rw [hservices]
  constructor
  · rw [List.map_map, List.map_filterMap]
    apply List.Nodup.filterMap
    · intro name name' id hid hid'
      obtain ⟨r, hr, rfl⟩ := Option.map_eq_some_iff.mp hid
      obtain ⟨r', hr', he⟩ := Option.map_eq_some_iff.mp hid'
      rw [← (record_of_lookup hg.records hr).1, ← (record_of_lookup hg.records hr').1,
        record_eq_of_id hg.records h.serviceIds hr hr' he.symm]
    · exact (order.perm _).nodup_iff.mpr (List.nodup_dedup _)
  · rw [List.length_map]
    refine le_trans (List.length_filterMap_le _ _) ?_
    rw [(order.perm _).length_eq]
    exact h.few n hg.node

theorem Generated.setUp (h : data.Deployable) (hg : data.Generated order svcMap n m)
    (loads : ℕ → ℕ → Option CompExport) {svcName : String} {r : ServiceRecord}
    (hneeded : svcName ∈ data.neededSvcNames n) (hr : svcMap.lookup svcName = some r) :
    SetUp ((CompNode.zero m.nodeDef).nodeInitWorkers loads) (m.registry loads)
      r.toManifest.serviceDef := by
  obtain ⟨hids, hfew⟩ := hg.services h
  obtain ⟨-, -, hset, -⟩ := setUp_foldl ((CompNode.zero m.nodeDef).nodeInitWorkers loads) hids hfew
  apply hset
  exact List.mem_map_of_mem ((hg.manifestOf.services _).mpr ⟨svcName, hneeded, r, hr, rfl⟩)

theorem Generated.nodeName (hg : data.Generated order svcMap n m)
    (loads : ℕ → ℕ → Option CompExport) :
    ((CompNode.zero m.nodeDef).nodeInitWorkers loads).nodeDef.name = n.name := by
  rw [UnloadNode.nodeDef_nodeInitWorkers]
  exact hg.manifestOf.name

theorem Generated.providedAt_of_entry (h : data.Deployable)
    (hg : data.Generated order svcMap n m) {svcName : String} {r : ServiceRecord}
    (hneeded : svcName ∈ data.neededSvcNames n) (hr : svcMap.lookup svcName = some r)
    (hentry : (m.registry loads).findServiceEntry (toUint32 r.id) ≠ none) :
    ∃ svc comp n' t j, data.ProvidedAt svc comp n' t j ∧ svc.name = svcName ∧ svc.id = r.id := by
  have hset := hg.setUp h loads hneeded hr
  have hcurrent := hg.nodeName loads
  obtain ⟨rfl, ⟨svc, -, rfl⟩ | ⟨nodeToUds, hnodeToUds, comp, hcomp, svc, hsvc, hrecord⟩⟩ :=
    record_of_lookup hg.records hr
  · -- A service of the platform names no component and has no path.
    by_cases hname : "Platform" = n.name
    · refine absurd (hset.unbound (hname.trans hcurrent.symm) (hg.finds_none h ?_)) hentry
      intro d hd
      rw [← hg.entered_eq (h.fits n hg.node)] at hd
      exact CompNode.id_ne_zero_of_mem_entered hd
    · exact absurd (hset.unrouted (fun he => hname (he.trans hcurrent)) rfl) hentry
  · by_cases hplaced : data.Placed comp.name
    · obtain ⟨n', hn', hplaces⟩ := hplaced
      obtain ⟨t, j, hplace⟩ := exists_place hplaces
      obtain ⟨id, -, rfl⟩ := Option.map_eq_some_iff.mp hrecord
      exact ⟨svc, comp, n', t, j, ⟨hn', hcomp, hsvc, hplace⟩, rfl, rfl⟩
    · -- Nor is there a component or a path for one that is not placed.
      have hlookup : data.compToNode.lookup comp.name = none := by
        refine Option.eq_none_iff_forall_not_mem.mpr fun nodeName hmem => hplaced ?_
        obtain ⟨n', hn', -, hplaces⟩ := placed_of_lookup_compToNode hmem
        exact ⟨n', hn', hplaces⟩
      have hempty : nodeToUds.lookup "" = none := by
        refine Option.eq_none_iff_forall_not_mem.mpr fun udsPath hmem => ?_
        obtain ⟨n', hn', hname⟩ := exists_of_lookup_nodeToUds hnodeToUds hmem
        exact h.named n' hn' hname
      obtain ⟨id, hid, rfl⟩ := Option.map_eq_some_iff.mp hrecord
      by_cases hname : "Unknown" = n.name
      · refine absurd (hset.unbound ?_ (hg.finds_none h ?_)) hentry
        · rw [hcurrent, ← hname]
          exact congrArg (Option.getD · "Unknown") hlookup
        · intro d hd he
          obtain ⟨comp', hcomp', j', hplace', -, hid', -⟩ := hg.place_of_configured hd
          have hsame := h.componentIds comp hcomp comp' hcomp' (by rw [hid', hid, he]; rfl)
          obtain ⟨thread, hthread, hj⟩ := Option.bind_eq_some_iff.mp hplace'
          refine hplaced ⟨n, hg.node, thread, List.mem_of_getElem? hthread, ?_⟩
          rw [hsame]
          exact List.mem_of_getElem? hj
      · refine absurd (hset.unrouted ?_ ?_) hentry
        · rw [hcurrent]
          intro he
          refine hname (Eq.trans ?_ he)
          exact (congrArg (Option.getD · "Unknown") hlookup).symm
        · change ((nodeToUds.lookup ((data.compToNode.lookup comp.name).getD "")).getD "") = ""
          rw [hlookup, Option.getD_none, hempty, Option.getD_none]

/-- A node deploys what the configuration says. -/
theorem Generated.deployed (h : data.Deployable) (hg : data.Generated order svcMap n m)
    (loads : ℕ → ℕ → Option CompExport) : data.Deployed n m loads := by
  have hcurrent := hg.nodeName loads
  constructor
  · have hfits := h.fits n hg.node
    obtain ⟨rn, hrn, hm⟩ := hg.generated
    refine NodeManifest.nodeInitWorkers_eq ?_ loads
    exact (initsFit_iff (threads_of_generate hrn hm) fun _ ht => (hg.resolves ht).1).mpr
      ⟨hfits.threads, hfits.comps⟩
  · intro svc comp t j hp hload
    obtain ⟨id, udsPath, hid, -, -, hr⟩ := h.record_of_providedAt hg.records hp
    obtain ⟨c, hmem, hname, hcid⟩ := hg.configured_of_place h hp.component hp.place hload
    obtain ⟨x, hx⟩ := List.mem_iff_getElem?.mp hmem
    obtain ⟨hfound, howner⟩ := hg.finds h hx
    rw [hid, Option.map_some, Option.some.injEq] at hcid
    rw [← hcid] at hfound howner
    have hset := hg.setUp h loads (h.needed_of_uses hp.uses) hr
    refine ⟨x, hset.bound hcurrent.symm x t hfound howner, ?_⟩
    exact ((hg.enters h loads).comps x _ hx).2.trans hname
  · intro svc comp t j hp hload
    obtain ⟨id, udsPath, hid, -, -, hr⟩ := h.record_of_providedAt hg.records hp
    have hset := hg.setUp h loads (h.needed_of_uses hp.uses) hr
    exact hset.unbound hcurrent.symm
      (hg.finds_none h (hg.not_configured_of_place h hp.component hid hp.place hload))
  · intro svc comp n' t j hp hne huses
    obtain ⟨id, udsPath, -, hudsPath, hpath, hr⟩ := h.record_of_providedAt hg.records hp
    have hset := hg.setUp h loads (h.needed_of_uses huses) hr
    refine ⟨udsPath, hudsPath, hset.routed ?_ udsPath rfl hpath⟩
    rw [hcurrent]
    exact fun he => hne (List.inj_on_of_nodup_map h.nodeNames hp.node hg.node he)
  · intro id hentry
    obtain ⟨hids, hfew⟩ := hg.services h
    obtain ⟨-, -, -, hnone⟩ :=
      setUp_foldl ((CompNode.zero m.nodeDef).nodeInitWorkers loads) hids hfew
    have hmem := by_contra fun hnot => hentry (hnone id hnot)
    obtain ⟨svcDef, hdef, rfl⟩ := List.mem_map.mp hmem
    obtain ⟨ms, hms, rfl⟩ := List.mem_map.mp hdef
    obtain ⟨svcName, hneeded, r, hr, rfl⟩ := (hg.manifestOf.services ms).mp hms
    obtain ⟨svc, comp, n', t, j, hp, rfl, hid⟩ := hg.providedAt_of_entry h hneeded hr hentry
    exact ⟨svc, comp, n', t, j, hp, uses_of_needed hneeded, congrArg toUint32 hid⟩

theorem generated_of_genManifest {ms : List NodeManifest}
    (haccepted : data.genManifest order = some ms) :
    ∃ svcMap, List.Forall₂ (data.Generated order svcMap) data.nodes ms := by
  obtain ⟨out, hout, hms⟩ := Option.bind_eq_some_iff.mp haccepted
  obtain ⟨svcMap, hsvcMap, hnodes, -⟩ := validateAndResolve_eq_some hout
  obtain ⟨hlen, hresolve⟩ := List.forall₂_iff_get.mp (forall₂_of_mapM hnodes)
  obtain ⟨hlen', hgenerate⟩ := List.forall₂_iff_get.mp (forall₂_of_mapM hms)
  refine ⟨svcMap, List.forall₂_iff_get.mpr ⟨hlen.trans hlen', fun i hi hi' => ?_⟩⟩
  exact ⟨hsvcMap, List.get_mem _ _, _, hresolve i hi (hlen ▸ hi), hgenerate i (hlen ▸ hi) hi'⟩

end ConfData

/-- What the generator accepts and the tables have room for is deployed: whatever loads succeed,
each node, from its own manifest alone, binds the services that its components provide to them and
routes the others that they use to the nodes of their providers. -/
theorem deploys {data : ConfData} {order : SetOrder} {ms : List NodeManifest}
    (haccepted : data.genManifest order = some ms) (h : data.Deployable) :
    List.Forall₂ (fun n m => ∀ loads, data.Deployed n m loads) data.nodes ms := by
  obtain ⟨svcMap, hgenerated⟩ := ConfData.generated_of_genManifest haccepted
  exact hgenerated.imp fun _ _ hg loads => hg.deployed h loads

theorem deployable_twoNodes : (twoNodes 7 8).Deployable := by
  have hlast : ∀ comp ∈ (twoNodes 7 8).components, comp.id.map toUint32 ≠ some 0 := by decide
  constructor
  · decide
  · decide
  · decide
  · decide
  · decide
  · decide
  · unfold ConfData.ServiceIdsDistinct
    decide
  · decide
  · intro n hn
    simp only [twoNodes, List.mem_cons, List.not_mem_nil, or_false] at hn
    rcases hn with rfl | rfl
    · exact ⟨by decide, by decide, by decide, fun _ _ _ _ comp hcomp =>
        hlast comp (ConfData.lastEntry_name hcomp).1⟩
    · exact ⟨by decide, by decide, by decide, fun _ _ _ _ comp hcomp =>
        hlast comp (ConfData.lastEntry_name hcomp).1⟩
  · intro n hn
    simp only [twoNodes, List.mem_cons, List.not_mem_nil, or_false] at hn
    rcases hn with rfl | rfl <;> decide

theorem deploys_twoNodes : ∃ a b, (twoNodes 7 8).genManifest .insertion = some [a, b] ∧
    RoutedTo (a.registry allLoad) 7 "B" "b.sock" ∧ ∃ x, BoundTo (b.registry allLoad) 7 x 0 := by
  obtain ⟨a, b, haccepted⟩ : ∃ a b, (twoNodes 7 8).genManifest .insertion = some [a, b] :=
    ⟨_, _, rfl⟩
  have hprovided : (twoNodes 7 8).ProvidedAt ⟨"S", 7, none⟩
      ⟨"Y", some 2, some "M", [⟨"S", 7, none⟩], ["T"]⟩
      ⟨"B", some "b.sock", none, none, [⟨"W", ["Y"]⟩]⟩ 0 0 :=
    ⟨by decide, by decide, by decide, by decide⟩
  cases deploys haccepted deployable_twoNodes with
  | cons ha hrest =>
    cases hrest with
    | cons hb _ =>
      obtain ⟨udsPath, hpath, hrouted⟩ := (ha allLoad).routed _ _ _ 0 0 hprovided (by decide)
        ⟨⟨"X", some 1, some "M", [⟨"T", 8, none⟩], ["S"]⟩, by decide, by decide, by decide⟩
      obtain rfl := Option.some.inj hpath
      obtain ⟨x, hx, -⟩ := (hb allLoad).bound _ _ 0 0 hprovided rfl
      exact ⟨a, b, haccepted, hrouted, x, hx⟩

end GeminiNOS

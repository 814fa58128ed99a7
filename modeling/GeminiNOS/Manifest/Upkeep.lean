import GeminiNOS.Component.Bindings
import GeminiNOS.Manifest.Deployment

/-! # What a configuration upholds

Commands unload and reload the components of a node while it runs. Whatever they do, what is
loaded is what the configuration has placed there, and the registry leads to it.
-/

namespace GeminiNOS

open Foundations

namespace ConfData

/-- The tables of a node that runs. A component is loaded at most once, and for its own thread. Its
services are bound to the instance while there is one, and the routes to other nodes are there. -/
structure Upheld (data : ConfData) (n : ConfNode) (s : NodeTables) : Prop where
  single : (s.loaded.map fun info => (s.comps info.comp).name).Nodup
  placed : ∀ info ∈ s.loaded, ∃ comp ∈ data.components, (s.comps info.comp).name = comp.name ∧
    ∃ j, n.componentAt info.ownerThread j = some comp.name
  bound : ∀ svc comp t j, data.ProvidedAt svc comp n t j → ∀ info ∈ s.loaded,
    (s.comps info.comp).name = comp.name → BoundTo s.registry (toUint32 svc.id) info.comp t
  unbound : ∀ svc comp t j, data.ProvidedAt svc comp n t j →
    (∀ info ∈ s.loaded, (s.comps info.comp).name ≠ comp.name) →
      s.registry.findServiceEntry (toUint32 svc.id) = none
  routed : ∀ svc comp n' t j, data.ProvidedAt svc comp n' t j → n' ≠ n → data.Uses n svc.name →
    ∃ udsPath, n'.udsPath = some udsPath ∧
      RoutedTo s.registry (toUint32 svc.id) n'.name udsPath

variable {data : ConfData} {order : SetOrder} {n n' : ConfNode} {m : NodeManifest}
  {svcMap : AList fun _ : String => ServiceRecord} {svc : ConfService} {comp : ConfComponent}
  {t j : ℕ} {loads : ℕ → ℕ → Option CompExport} {s : NodeTables}

theorem Generated.comp_of_mem (hg : data.Generated order svcMap n m) {c : CompDef}
    (hc : c ∈ m.nodeDef.threads.flatten) : ∃ comp ∈ data.components, n.Places comp.name ∧
      c.name = comp.name ∧ comp.id.map toUint32 = some c.id := by
  obtain ⟨cs, hcs, hc⟩ := List.mem_flatten.mp hc
  rw [hg.threads] at hcs
  obtain ⟨thread, hthread, rfl⟩ := List.mem_map.mp hcs
  obtain ⟨compName, hmem, rc, hrc, rfl⟩ := mem_compDefs.mp hc
  obtain ⟨hname, comp, hlookup, hid⟩ := resolveComponent_eq_some hrc
  rw [lookup_compMap_eq_lastEntry] at hlookup
  obtain ⟨hcomp, rfl⟩ := lastEntry_name hlookup
  refine ⟨comp, hcomp, ⟨thread, hthread, hmem⟩, hname, ?_⟩
  rw [hid]
  rfl

theorem Generated.id_ne_zero (h : data.Deployable) (hg : data.Generated order svcMap n m)
    {c : CompDef} (hc : c ∈ m.nodeDef.threads.flatten) : c.id ≠ 0 := by
  obtain ⟨cs, hcs, hc⟩ := List.mem_flatten.mp hc
  rw [hg.threads] at hcs
  obtain ⟨thread, hthread, rfl⟩ := List.mem_map.mp hcs
  exact id_ne_zero_of_nodeFits (h.fits n hg.node) hthread hc

theorem Generated.unique (h : data.Deployable) (hg : data.Generated order svcMap n m) :
    m.nodeDef.Unique := by
  have hnames : (m.nodeDef.threads.flatten.map CompDef.name).Nodup := by
    have hflat : n.threads.flatMap (List.map CompDef.name ∘ data.compDefs) =
        n.threads.flatMap ConfThread.components :=
      List.flatMap_congr fun thread ht => (hg.resolves ht).2
    rw [hg.threads, List.map_flatten, List.map_map, ← List.flatMap_def, hflat]
    exact (List.nodup_flatMap.mp h.places).1 n hg.node
  refine ⟨hnames.of_map.map_on fun c hc c' hc' hid => ?_, hnames, (hg.services h).1⟩
  obtain ⟨comp, hcomp, -, hname, hcid⟩ := hg.comp_of_mem hc
  obtain ⟨comp', hcomp', -, hname', hcid'⟩ := hg.comp_of_mem hc'
  have hsame := h.componentIds comp hcomp comp' hcomp' (by rw [hcid, hcid', hid])
  exact List.inj_on_of_nodup_map hnames hc hc' (by rw [hname, hname', hsame])

theorem Generated.own (h : data.Deployable) (hg : data.Generated order svcMap n m)
    {svcDef : NosServiceDef} (hsvc : svcDef ∈ m.nodeDef.services)
    (hid : svcDef.providerCompId ∈ m.nodeDef.threads.flatten.map CompDef.id) :
    svcDef.nodeName = m.nodeDef.name := by
  obtain ⟨ms, hms, rfl⟩ := List.mem_map.mp hsvc
  obtain ⟨svcName, -, r, hr, rfl⟩ := (hg.manifestOf.services ms).mp hms
  obtain ⟨c, hc, hcid⟩ := List.mem_map.mp hid
  obtain ⟨-, ⟨svc, -, rfl⟩ | ⟨nodeToUds, -, comp, hcomp, svc, hprovides, hrecord⟩⟩ :=
    record_of_lookup hg.records hr
  · exact absurd hcid (hg.id_ne_zero h hc)
  · obtain ⟨comp', hcomp', hplaces, -, hcid'⟩ := hg.comp_of_mem hc
    obtain ⟨id, hcompId, rfl⟩ := Option.map_eq_some_iff.mp hrecord
    have hsame : comp.name = comp'.name :=
      h.componentIds comp hcomp comp' hcomp' (by rw [hcompId, hcid', hcid]; rfl)
    obtain ⟨t, j, hplace⟩ := exists_place (hsame ▸ hplaces)
    have hlookup := h.lookup_compToNode ⟨hg.node, hcomp, hprovides, hplace⟩
    exact (congrArg (Option.getD · "Unknown") hlookup).trans hg.manifestOf.name.symm

theorem Generated.closed (h : data.Deployable) (hg : data.Generated order svcMap n m) :
    NodeTables.Closed m.nodeDef where
  unique := hg.unique h
  few := (hg.services h).2
  own _ hsvc hid := hg.own h hsvc hid

theorem Generated.follows_startup (h : data.Deployable) (hg : data.Generated order svcMap n m)
    (loads : ℕ → ℕ → Option CompExport) :
    (NodeTables.startup m.nodeDef loads).Follows (m.registry loads) := by
  obtain ⟨hids, hfew⟩ := hg.services h
  obtain ⟨-, -, hset, hlisted⟩ :=
    setUp_foldl ((CompNode.zero m.nodeDef).nodeInitWorkers loads) hids hfew
  have henters := hg.enters h loads
  have hloaded : (NodeTables.startup m.nodeDef loads).loaded =
      (data.configured n loads).zipIdx.map CompNode.recordOf :=
    henters.loaded_eq (hg.fitting h loads)
  have hname : ((CompNode.zero m.nodeDef).nodeInitWorkers loads).nodeDef.name =
      (NodeTables.startup m.nodeDef loads).nodeDef.name := by
    rw [UnloadNode.nodeDef_nodeInitWorkers]
    rfl
  constructor
  · intro svc hsvc hlocal info hinfo hid
    rw [hloaded] at hinfo
    obtain ⟨⟨d, x⟩, hmem, rfl⟩ := List.mem_map.mp hinfo
    have hx := List.mk_mem_zipIdx_iff_getElem?.mp hmem
    obtain ⟨hfound, howner⟩ := hg.finds h hx
    have hid' : d.1.id = svc.providerCompId := (henters.comps x d hx).1.symm.trans hid
    rw [hid'] at hfound howner
    exact (hset svc hsvc).bound (hlocal.trans hname.symm) x d.2 hfound howner
  · intro svc hsvc hlocal hnone
    refine (hset svc hsvc).unbound (hlocal.trans hname.symm) ?_
    rw [CompNode.nodeGetLoadedCompById, Option.map_eq_none_iff, List.find?_eq_none]
    exact fun info hinfo he => hnone info hinfo (of_decide_eq_true he)
  · exact fun _ _ _ => rfl
  · exact fun id hid => by_contra fun hnot => hid (hlisted id hnot)

theorem Generated.serviceDef_mem (h : data.Deployable) (hg : data.Generated order svcMap n m)
    (hp : data.ProvidedAt svc comp n' t j) (huses : data.Uses n svc.name) :
    ∃ id udsPath, comp.id = some id ∧
      ⟨toUint32 svc.id, n'.name, toUint32 id, some udsPath⟩ ∈ m.nodeDef.services := by
  obtain ⟨id, udsPath, hid, -, -, hr⟩ := h.record_of_providedAt hg.records hp
  refine ⟨id, udsPath, hid, List.mem_map.mpr ⟨_, (hg.manifestOf.services _).mpr
    ⟨svc.name, h.needed_of_uses huses, _, hr, rfl⟩, rfl⟩⟩

theorem Generated.place_of_loaded (h : data.Deployable) (hg : data.Generated order svcMap n m)
    (hdefined : s.Defined m.nodeDef (CompNode.entered m.nodeDef loads)) {info : LoadedCompInfo}
    (hinfo : info ∈ s.loaded) : ∃ comp ∈ data.components, (s.comps info.comp).name = comp.name ∧
      comp.id.map toUint32 = some (s.comps info.comp).id ∧ ∃ j,
        n.componentAt info.ownerThread j = some comp.name := by
  have hmem := hdefined.loaded.subset (List.mem_map_of_mem hinfo)
  rw [hg.entered_eq (h.fits n hg.node)] at hmem
  obtain ⟨comp, hcomp, j, hplace, hname, hid, -⟩ := hg.place_of_configured hmem
  exact ⟨comp, hcomp, hname, hid, j, hplace⟩

theorem Generated.upheld (h : data.Deployable) (hg : data.Generated order svcMap n m)
    (hs : s.Upkept m.nodeDef loads (m.registry loads)) : data.Upheld n s := by
  have hname : s.nodeDef.name = n.name := by
    rw [hs.defined.nodeDef]
    exact hg.manifestOf.name
  constructor
  · exact hs.defined.nodup (hg.unique h).names
  · intro info hinfo
    obtain ⟨comp, hcomp, hcname, -, hplace⟩ := hg.place_of_loaded h hs.defined hinfo
    exact ⟨comp, hcomp, hcname, hplace⟩
  · intro svc comp t j hp info hinfo hcname
    obtain ⟨comp', hcomp', hcname', hcid, j', hplace⟩ := hg.place_of_loaded h hs.defined hinfo
    obtain rfl : comp' = comp :=
      List.inj_on_of_nodup_map h.components hcomp' hp.component (hcname'.symm.trans hcname)
    obtain ⟨rfl, -⟩ := h.position_unique hg.node hplace hp.place
    obtain ⟨id, udsPath, hid, hmem⟩ := hg.serviceDef_mem h hp hp.uses
    rw [← hs.defined.nodeDef] at hmem
    rw [hid] at hcid
    exact hs.follows.bound _ hmem hname.symm info hinfo (Option.some.inj hcid).symm
  · intro svc comp t j hp hnone
    obtain ⟨id, udsPath, hid, hmem⟩ := hg.serviceDef_mem h hp hp.uses
    rw [← hs.defined.nodeDef] at hmem
    refine hs.follows.unbound _ hmem hname.symm fun info hinfo he => ?_
    obtain ⟨comp', hcomp', hcname', hcid, -⟩ := hg.place_of_loaded h hs.defined hinfo
    refine hnone info hinfo (hcname'.trans ?_)
    exact h.componentIds comp' hcomp' comp hp.component (by rw [hcid, hid, he]; rfl)
  · intro svc comp n' t j hp hne huses
    obtain ⟨udsPath, hpath, slot, hslot, hroute⟩ :=
      (hg.deployed h loads).routed svc comp n' t j hp hne huses
    obtain ⟨id, _, -, hmem⟩ := hg.serviceDef_mem h hp huses
    rw [← hs.defined.nodeDef] at hmem
    have hremote : n'.name ≠ s.nodeDef.name := by
      rw [hname]
      exact fun he => hne (List.inj_on_of_nodup_map h.nodeNames hp.node hg.node he)
    exact ⟨udsPath, hpath, slot, (hs.follows.remote _ hmem hremote).trans hslot, hroute⟩

theorem Generated.upheld_of_run (h : data.Deployable) (hg : data.Generated order svcMap n m)
    (loads : ℕ → ℕ → Option CompExport) (cmds : List NodeCommand) :
    Run.Always NodeTables.step (data.Upheld n) (NodeTables.startup m.nodeDef loads) cmds := by
  apply Run.always_of_invariant (I := fun s : NodeTables =>
    s.Upkept m.nodeDef loads (m.registry loads))
  · exact fun s cmd s' hs hstep => hs.step (hg.closed h) hstep
  · exact fun s hs => hg.upheld h hs
  · exact ⟨NodeTables.sound_startup _ loads, NodeTables.defined_startup _ loads,
      hg.follows_startup h loads⟩

end ConfData

/-- What is deployed stays deployed: through all commands that load, reload and unload components,
whatever loads succeed, each node of a configuration upholds what that says. -/
theorem always_upheld {data : ConfData} {order : SetOrder} {ms : List NodeManifest}
    (haccepted : data.genManifest order = some ms) (h : data.Deployable) :
    List.Forall₂ (fun n m => ∀ loads cmds, Run.Always NodeTables.step (data.Upheld n)
      (NodeTables.startup m.nodeDef loads) cmds) data.nodes ms := by
  obtain ⟨svcMap, hgenerated⟩ := ConfData.generated_of_genManifest haccepted
  exact hgenerated.imp fun _ _ hg loads cmds => hg.upheld_of_run h loads cmds

/-- The component of a node is reloaded and then unloaded. -/
theorem always_upheld_twoNodes : ∃ a b, (twoNodes 7 8).genManifest .insertion = some [a, b] ∧
    Run.Always NodeTables.step
      ((twoNodes 7 8).Upheld ⟨"B", some "b.sock", none, none, [⟨"W", ["Y"]⟩]⟩)
      (NodeTables.startup b.nodeDef allLoad)
      [.reload "Y" ⟨true, true, true, .ok, false, .ok, ⟨true, true⟩⟩, .unload "Y"] := by
  obtain ⟨a, b, haccepted⟩ : ∃ a b, (twoNodes 7 8).genManifest .insertion = some [a, b] :=
    ⟨_, _, rfl⟩
  cases always_upheld haccepted deployable_twoNodes with
  | cons _ hrest =>
    cases hrest with
    | cons hb _ => exact ⟨a, b, haccepted, hb allLoad _⟩

end GeminiNOS

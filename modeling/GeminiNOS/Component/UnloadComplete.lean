import GeminiNOS.Component.TablesInvariant
import Mathlib.Data.List.Flatten
import Mathlib.Data.List.Perm.Subperm

/-! # Unloading is complete and local

With unique ids a loaded component is the only one that the node definition gives its
services to. Unloading removes the entries of these services, and thereby all that are bound
to the component, and none that is bound to another one.
-/

namespace GeminiNOS

open Foundations

/-- The ids and the names of the components are unique, and so are the ids of the services. -/
structure NosNodeDef.Unique (nodeDef : NosNodeDef) : Prop where
  ids : (nodeDef.threads.flatten.map CompDef.id).Nodup
  names : (nodeDef.threads.flatten.map CompDef.name).Nodup
  services : (nodeDef.services.map NosServiceDef.serviceId).Nodup

theorem nodup_map_of_subperm {α β : Type*} {l l' : List α} (h : l.Subperm l') {f : α → β}
    (hnodup : (l'.map f).Nodup) : (l.map f).Nodup := by
  obtain ⟨l'', hperm, hsub⟩ := h
  exact (hperm.map f).nodup_iff.mp ((hsub.map f).nodup hnodup)

theorem CompNode.entered_sublist (nodeDef : NosNodeDef) (loads : ℕ → ℕ → Option CompExport) :
    ((entered nodeDef loads).map Prod.fst).Sublist nodeDef.threads.flatten := by
  have hthread : ∀ td ∈ (nodeDef.threads.take maxWorkers).zipIdx,
      ((enteredThread td.2 ((td.1.takeWhile (·.id ≠ 0)).take maxComponentsPerNode).zipIdx
        (loads td.2)).map Prod.fst).Sublist td.1 := by
    intro td _
    rw [enteredThread, List.map_map]
    refine (List.filter_sublist.map _).trans ?_
    rw [show Prod.fst ∘ (fun c : CompDef × ℕ => (c.1, td.2)) = Prod.fst from rfl,
      List.zipIdx_map_fst]
    exact (List.take_sublist _ _).trans (List.takeWhile_sublist _)
  rw [entered, List.map_flatMap]
  refine (List.Sublist.flatMap_right _ hthread).trans ?_
  rw [List.flatMap_def, List.zipIdx_map_fst]
  exact (List.take_sublist _ _).flatten

namespace NodeTables

variable {s s' s₁ : NodeTables} {info : LoadedCompInfo} {name : String} {nodeDef : NosNodeDef}
  {defs : List (CompDef × ℕ)}

/-- The loaded components are among those that a node has entered. -/
structure Defined (s : NodeTables) (nodeDef : NosNodeDef) (defs : List (CompDef × ℕ)) : Prop where
  nodeDef : s.nodeDef = nodeDef
  loaded : (s.loaded.map (LoadedCompInfo.definition s.comps)).Subperm defs

theorem Unloaded.defined (hu : s.Unloaded s₁ info) (h : s.Defined nodeDef defs) :
    s₁.Defined nodeDef defs := by
  refine ⟨hu.nodeDef.trans h.nodeDef, ?_⟩
  rw [hu.comps, hu.loaded]
  exact (List.filter_sublist.map _).subperm.trans h.loaded

theorem Entered.defined (he : s₁.Entered s' (s.loadData name info)) (hu : s.Unloaded s₁ info)
    (h : s.Defined nodeDef defs) (hsound : s.Sound) (hinfo : info ∈ s.loaded)
    (hname : (s.comps info.comp).name = name) : s'.Defined nodeDef defs := by
  refine ⟨he.nodeDef.trans (hu.nodeDef.trans h.nodeDef), ?_⟩
  have hold : ∀ info' ∈ s₁.loaded, info'.definition s'.comps = info'.definition s.comps := by
    intro info' hmem
    have hlt : info'.comp < s₁.compCount := (hu.sound hsound).loaded_lt info' hmem
    rw [LoadedCompInfo.definition, he.comps _ hlt, hu.comps]
    rfl
  have hnew : LoadedCompInfo.definition s'.comps ⟨s₁.compCount, info.libName, info.ownerThread⟩ =
      info.definition s.comps := by
    rw [LoadedCompInfo.definition, he.instance_id, he.instance_name, LoadedCompInfo.definition,
      hname]
    rfl
  have hloaded : s'.loaded = s₁.loaded ++ [⟨s₁.compCount, info.libName, info.ownerThread⟩] :=
    he.loaded
  have hback : (s₁.loaded ++ [info]).Subperm s.loaded := by
    rw [hu.loaded]
    have hperm := List.filter_append_perm (fun info' => info'.comp ≠ info.comp) s.loaded
    refine .trans (.append (.refl _) ?_) hperm.subperm
    rw [List.singleton_subperm_iff]
    exact List.mem_filter.mpr ⟨hinfo, by simp⟩
  rw [hloaded, List.map_append, List.map_singleton, List.map_congr_left hold, hnew,
    ← List.map_singleton, ← List.map_append]
  obtain ⟨l, hperm, hsub⟩ := hback
  exact .trans ⟨l.map _, hperm.map _, hsub.map _⟩ h.loaded

theorem defined_startup (nodeDef : NosNodeDef) (loads : ℕ → ℕ → Option CompExport) :
    (startup nodeDef loads).Defined nodeDef (CompNode.entered nodeDef loads) := by
  refine ⟨rfl, ?_⟩
  have hdefs := (CompNode.enters_nodeInitWorkers nodeDef loads).loadedDefs
  have hloaded : (startup nodeDef loads).loaded.map
      (LoadedCompInfo.definition (startup nodeDef loads).comps) =
        (CompNode.entered nodeDef loads).take maxComponentsPerNode := hdefs
  rw [hloaded]
  exact (List.take_sublist _ _).subperm

theorem defined_of_reachable {loads : ℕ → ℕ → Option CompExport}
    (h : Run.Reachable step (startup nodeDef loads) s) :
    s.Defined nodeDef (CompNode.entered nodeDef loads) := by
  have hboth : s.Sound ∧ s.Defined nodeDef (CompNode.entered nodeDef loads) := by
    refine h.invariant (I := fun s => s.Sound ∧ s.Defined nodeDef (CompNode.entered nodeDef loads))
      ?_ ⟨sound_startup nodeDef loads, defined_startup nodeDef loads⟩
    rintro s cmd s' ⟨hsound, hdefined⟩ hs
    refine ⟨hsound.step hs, ?_⟩
    rcases step_cases hsound hs with rfl | ⟨_, _, _, -, hinfo, hname, hunload, rfl | ⟨-, he⟩⟩
    · exact hdefined
    · exact hunload.defined hdefined
    · exact he.defined hunload hdefined hsound hinfo hname
  exact hboth.2

/-- What tells the components of the node definition apart tells the loaded ones apart. -/
theorem Defined.nodup {loads : ℕ → ℕ → Option CompExport} {κ : Type} {key : CompDef → κ}
    (h : s.Defined nodeDef (CompNode.entered nodeDef loads))
    (hkey : (nodeDef.threads.flatten.map key).Nodup) :
    (s.loaded.map fun info => key (info.definition s.comps).1).Nodup := by
  have hentered := ((CompNode.entered_sublist nodeDef loads).map key).nodup hkey
  rw [List.map_map] at hentered
  have hnodup := nodup_map_of_subperm h.loaded hentered
  rw [List.map_map] at hnodup
  exact hnodup

theorem eq_of_mem_servicesOf {id a b : ℕ}
    (hunique : (s.nodeDef.services.map NosServiceDef.serviceId).Nodup)
    (ha : id ∈ s.servicesOf a) (hb : id ∈ s.servicesOf b) : a = b := by
  obtain ⟨svc, hsvc, hid⟩ := List.mem_map.mp ha
  obtain ⟨svc', hsvc', hid'⟩ := List.mem_map.mp hb
  obtain ⟨hmem, hcomp⟩ := List.mem_filter.mp hsvc
  obtain ⟨hmem', hcomp'⟩ := List.mem_filter.mp hsvc'
  have heq : svc = svc' :=
    List.inj_on_of_nodup_map hunique hmem hmem' (hid.trans hid'.symm)
  rw [← of_decide_eq_true hcomp, ← of_decide_eq_true hcomp', heq]

/-- A component has been unloaded: nothing refers to it, and the records, the threads and the
bindings of all other components are as they were. -/
structure UnloadedLocally (s s' : NodeTables) (name : String) (info : LoadedCompInfo) : Prop where
  noRecord : ∀ info' ∈ s'.loaded, info'.comp ≠ info.comp
  noName : ∀ info' ∈ s'.loaded, (s'.comps info'.comp).name ≠ name
  noThread : ∀ t, info.comp ∉ s'.components t
  noEntry : ∀ i < s'.registry.count, (s'.registry.slots i).localProvider ≠ some info.comp
  comps : s'.comps = s.comps
  records : s'.loaded = s.loaded.filter fun info' => info'.comp ≠ info.comp
  threads : ∀ t, (s'.components t).Perm ((s.components t).filter (· ≠ info.comp))
  bindings : ∀ id slot y, s.registry.findServiceEntry id = some slot →
    slot.localProvider = some y → y ≠ info.comp → s'.registry.findServiceEntry id = some slot
  services : ∀ id, id ∉ s.servicesOf (s.comps info.comp).id →
    s'.registry.findServiceEntry id = s.registry.findServiceEntry id

theorem Unloaded.unloadedLocally {loads : ℕ → ℕ → Option CompExport} (hu : s.Unloaded s' info)
    (hsound : s.Sound) (hdefined : s.Defined nodeDef (CompNode.entered nodeDef loads))
    (hunique : nodeDef.Unique) (hinfo : info ∈ s.loaded)
    (hname : (s.comps info.comp).name = name) : s.UnloadedLocally s' name info := by
  have hids := hdefined.nodup hunique.ids
  have hnames := hdefined.nodup hunique.names
  have hmem : ∀ info' ∈ s'.loaded, info' ∈ s.loaded ∧ info'.comp ≠ info.comp := by
    intro info' h
    rw [hu.loaded] at h
    exact ⟨List.mem_of_mem_filter h, of_decide_eq_true (List.mem_filter.mp h).2⟩
  refine ⟨fun info' h => (hmem info' h).2, fun info' h hname' => ?_, fun t hx => ?_,
    fun i hi hx => ?_, hu.comps, hu.loaded, hu.threads, fun id slot y hslot hy hne => ?_,
    fun id hid => (hu.services id).trans (if_neg hid)⟩
  · obtain ⟨hold, hne⟩ := hmem info' h
    rw [hu.comps] at hname'
    exact hne (congrArg LoadedCompInfo.comp
      (List.inj_on_of_nodup_map hnames hold hinfo (hname'.trans hname.symm)))
  · have hfilter := (List.mem_filter.mp ((hu.threads t).subset hx)).2
    exact of_decide_eq_true hfilter rfl
  · -- The entry would be that of a loaded component.
    have hfind := hu.distinct.find_eq_some.mpr ⟨i, hi, rfl, rfl⟩
    obtain ⟨⟨info', h, hcomp⟩, -⟩ := (hu.sound hsound).provides _ _ hfind _ hx
    exact (hmem info' h).2 hcomp
  · obtain ⟨⟨info', hinfo', rfl⟩, hprovides⟩ := hsound.provides id slot hslot y hy
    refine ((hu.services id).trans (if_neg fun hid => hne ?_)).trans hslot
    have hid' := eq_of_mem_servicesOf (hdefined.nodeDef ▸ hunique.services) hprovides hid
    exact congrArg LoadedCompInfo.comp (List.inj_on_of_nodup_map hids hinfo' hinfo hid')

/-- An unload removes the component from every table and leaves all others in theirs, or it
changes nothing. -/
theorem unload_complete {loads : ℕ → ℕ → Option CompExport} (hunique : nodeDef.Unique)
    (h : Run.Reachable step (startup nodeDef loads) s) (name : String) :
    (∀ s', s.nodeUnloadComponent name = (.ok, s') →
      ∃ info ∈ s.loaded, (s.comps info.comp).name = name ∧ s.UnloadedLocally s' name info) ∧
    ∀ s', s.nodeUnloadComponent name = (.err, s') → s' = s := by
  unfold nodeUnloadComponent
  cases hentry : s.findEntry name with
  | none =>
    refine ⟨fun s' he => ?_, fun s' he => (congrArg Prod.snd he).symm⟩
    cases congrArg Prod.fst he
  | some entry =>
    obtain ⟨idx, info⟩ := entry
    obtain ⟨hget, hname⟩ := findEntry_eq_some hentry
    refine ⟨fun s' he => ?_, fun s' he => ?_⟩
    · obtain rfl : s.unloadEntry idx info = s' := congrArg Prod.snd he
      have hinfo := List.mem_of_getElem? hget
      have hsound := sound_of_reachable h
      exact ⟨info, hinfo, hname, (hsound.unloadEntry hget).unloadedLocally hsound
        (defined_of_reachable h) hunique hinfo hname⟩
    · cases congrArg Prod.fst he

/-- A component is reloaded, and then its new instance is unloaded. -/
theorem unload_complete_pongNode :
    let s := (startup CompNode.pongNode fun _ _ => some ⟨true, true⟩).doReload "pong"
      ⟨true, true, true, .ok, false, .ok, ⟨true, true⟩⟩
    ∃ info ∈ s.loaded, (s.comps info.comp).name = "pong" ∧
      s.UnloadedLocally (s.doUnload "pong") "pong" info := by
  apply (@unload_complete _ CompNode.pongNode _ ⟨by decide, by decide, by decide⟩
    ⟨[.reload "pong" ⟨true, true, true, .ok, false, .ok, ⟨true, true⟩⟩], rfl⟩ "pong").1
  exact Prod.ext (by decide) rfl

end NodeTables

end GeminiNOS

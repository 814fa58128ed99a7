import GeminiNOS.Component.ReloadOutcome
import GeminiNOS.Component.UnloadComplete

/-! # The registry follows the loaded components

If the services of a node definition are distinct and have room in the registry, and the
components of the node provide services of the node alone, then every command keeps the registry
as the table of loaded components says: a service is bound to the instance of its component, or
has no entry while that is not loaded, and the routes to other nodes stay.
-/

namespace GeminiNOS

open Foundations

section Registry

variable {reg : ServiceRegistry ℕ ℕ} {ids listed : List ℕ} {id a x t : ℕ}

theorem count_lt_of_listed (h : reg.Distinct)
    (hlisted : ∀ id, reg.findServiceEntry id ≠ none → id ∈ listed) (ha : a ∈ listed)
    (hnew : reg.findServiceEntry a = none) : reg.count < listed.length := by
  let keys := (List.range reg.count).map fun i => (reg.slots i).serviceId
  have hkey : ∀ k ∈ keys, reg.findServiceEntry k ≠ none := by
    intro k hk hnone
    obtain ⟨i, hi, rfl⟩ := List.mem_map.mp hk
    exact SlotTable.find_eq_none.mp hnone i (List.mem_range.mp hi) rfl
  have hnodup : (a :: keys).Nodup := by
    refine List.nodup_cons.mpr ⟨fun hmem => hkey a hmem hnew, ?_⟩
    refine List.nodup_range.map_on fun i hi j hj he => ?_
    exact h i (List.mem_range.mp hi) j (List.mem_range.mp hj) he
  have hsub : a :: keys ⊆ listed :=
    List.cons_subset.mpr ⟨ha, fun k hk => hlisted k (hkey k hk)⟩
  have hlen := (hnodup.subperm hsub).length_le
  rw [List.length_cons, List.length_map, List.length_range] at hlen
  exact hlen

theorem bindServices_listed (h : reg.Distinct)
    (hlisted : ∀ id, reg.findServiceEntry id ≠ none → id ∈ listed)
    (hroom : listed.length ≤ maxServices) (hids : ids ⊆ listed) (x t : ℕ) :
    (∀ id ∈ ids, BoundTo (bindServices reg ids x t) id x t) ∧
      ∀ id ∉ ids, (bindServices reg ids x t).findServiceEntry id = reg.findServiceEntry id := by
  induction ids generalizing reg with
  | nil => exact ⟨fun _ h => absurd h List.not_mem_nil, fun _ _ => rfl⟩
  | cons a ids ih =>
    obtain ⟨hdistinct, hother, hcases⟩ := bind_cases h a x t
    have ha : a ∈ listed := hids List.mem_cons_self
    have hbound : BoundTo (reg.nosServiceRegisterProviderBind a (some x) (some t)).2 a x t := by
      rcases hcases with hbound | ⟨-, hnew, hfull⟩
      · exact hbound
      · have hlt := count_lt_of_listed h hlisted ha hnew
        omega
    have hlisted' : ∀ id, (reg.nosServiceRegisterProviderBind a (some x)
        (some t)).2.findServiceEntry id ≠ none → id ∈ listed := by
      intro id hid
      by_cases he : id = a
      · exact he ▸ ha
      · rw [hother id he] at hid
        exact hlisted id hid
    obtain ⟨hall, hrest⟩ := ih hdistinct hlisted' fun id hid =>
      hids (List.mem_cons_of_mem a hid)
    constructor
    · intro id hid
      by_cases hmem : id ∈ ids
      · exact hall id hmem
      · obtain rfl : id = a := (List.mem_cons.mp hid).resolve_right hmem
        exact hbound.congr (hrest id hmem)
    · intro id hid
      rw [List.mem_cons, not_or] at hid
      exact (hrest id hid.2).trans (hother id hid.1)

end Registry

namespace NodeTables

variable {s s' s₁ : NodeTables} {reg₀ : ServiceRegistry ℕ ℕ} {info : LoadedCompInfo}
  {svc : NosServiceDef} {data : ReloadData}

/-- The registry has what the table of loaded components says, and routes as they once were. -/
structure Follows (s : NodeTables) (reg₀ : ServiceRegistry ℕ ℕ) : Prop where
  bound : ∀ svc ∈ s.nodeDef.services, svc.nodeName = s.nodeDef.name → ∀ info ∈ s.loaded,
    (s.comps info.comp).id = svc.providerCompId →
      BoundTo s.registry svc.serviceId info.comp info.ownerThread
  unbound : ∀ svc ∈ s.nodeDef.services, svc.nodeName = s.nodeDef.name →
    (∀ info ∈ s.loaded, (s.comps info.comp).id ≠ svc.providerCompId) →
      s.registry.findServiceEntry svc.serviceId = none
  remote : ∀ svc ∈ s.nodeDef.services, svc.nodeName ≠ s.nodeDef.name →
    s.registry.findServiceEntry svc.serviceId = reg₀.findServiceEntry svc.serviceId
  listed : ∀ id, s.registry.findServiceEntry id ≠ none →
    id ∈ s.nodeDef.services.map NosServiceDef.serviceId

/-- The services are distinct and have room, and those of the components of the node are services
of the node. -/
structure Closed (nodeDef : NosNodeDef) : Prop where
  unique : nodeDef.Unique
  few : nodeDef.services.length ≤ maxServices
  own : ∀ svc ∈ nodeDef.services, svc.providerCompId ∈ nodeDef.threads.flatten.map CompDef.id →
    svc.nodeName = nodeDef.name

theorem mem_servicesOf_iff (hunique : (s.nodeDef.services.map NosServiceDef.serviceId).Nodup)
    (hsvc : svc ∈ s.nodeDef.services) {id : ℕ} :
    svc.serviceId ∈ s.servicesOf id ↔ svc.providerCompId = id := by
  constructor
  · intro hmem
    obtain ⟨svc', hsvc', hid⟩ := List.mem_map.mp hmem
    obtain ⟨hmem', hcomp⟩ := List.mem_filter.mp hsvc'
    rw [← List.inj_on_of_nodup_map hunique hmem' hsvc hid]
    exact of_decide_eq_true hcomp
  · rintro rfl
    exact List.mem_map_of_mem (List.mem_filter.mpr ⟨hsvc, decide_eq_true rfl⟩)

theorem mem_localServicesOf_iff
    (hunique : (s.nodeDef.services.map NosServiceDef.serviceId).Nodup)
    (hsvc : svc ∈ s.nodeDef.services) {id : ℕ} : svc.serviceId ∈ s.localServicesOf id ↔
      svc.providerCompId = id ∧ svc.nodeName = s.nodeDef.name := by
  constructor
  · intro hmem
    obtain ⟨svc', hsvc', hid⟩ := List.mem_map.mp hmem
    obtain ⟨hmem', hcomp⟩ := List.mem_filter.mp hsvc'
    rw [← List.inj_on_of_nodup_map hunique hmem' hsvc hid]
    exact of_decide_eq_true hcomp
  · intro hlocal
    exact List.mem_map_of_mem (List.mem_filter.mpr ⟨hsvc, decide_eq_true hlocal⟩)

theorem Follows.unloaded (h : s.Follows reg₀) (hclosed : Closed s.nodeDef)
    (hids : (s.loaded.map fun info => (s.comps info.comp).id).Nodup) (hinfo : info ∈ s.loaded)
    (hown : (s.comps info.comp).id ∈ s.nodeDef.threads.flatten.map CompDef.id)
    (hu : s.Unloaded s₁ info) : s₁.Follows reg₀ := by
  have hunique := hclosed.unique.services
  have hmem : ∀ info' ∈ s₁.loaded, info' ∈ s.loaded ∧ info'.comp ≠ info.comp := by
    intro info' hinfo'
    rw [hu.loaded] at hinfo'
    exact ⟨List.mem_of_mem_filter hinfo', of_decide_eq_true (List.mem_filter.mp hinfo').2⟩
  have hkept : ∀ svc ∈ s.nodeDef.services, svc.providerCompId ≠ (s.comps info.comp).id →
      s₁.registry.findServiceEntry svc.serviceId = s.registry.findServiceEntry svc.serviceId :=
    fun svc hsvc hne =>
      (hu.services _).trans (if_neg fun hmem => hne ((mem_servicesOf_iff hunique hsvc).mp hmem))
  constructor
  · rw [hu.nodeDef, hu.comps]
    intro svc hsvc hname info' hinfo' hid
    obtain ⟨hold, hne⟩ := hmem info' hinfo'
    refine (h.bound svc hsvc hname info' hold hid).congr (hkept svc hsvc fun he => hne ?_)
    exact congrArg LoadedCompInfo.comp
      (List.inj_on_of_nodup_map hids hold hinfo (hid.trans he))
  · rw [hu.nodeDef, hu.comps]
    intro svc hsvc hname hnone
    by_cases hprovider : svc.providerCompId = (s.comps info.comp).id
    · exact (hu.services _).trans (if_pos ((mem_servicesOf_iff hunique hsvc).mpr hprovider))
    · rw [hkept svc hsvc hprovider]
      refine h.unbound svc hsvc hname fun info' hinfo' hid => ?_
      by_cases he : info'.comp = info.comp
      · exact hprovider (he ▸ hid.symm)
      · refine hnone info' ?_ hid
        rw [hu.loaded]
        exact List.mem_filter.mpr ⟨hinfo', decide_eq_true he⟩
  · rw [hu.nodeDef]
    intro svc hsvc hname
    rw [hkept svc hsvc fun he => hname (hclosed.own svc hsvc (he ▸ hown))]
    exact h.remote svc hsvc hname
  · rw [hu.nodeDef]
    intro id hid
    refine h.listed id fun hnone => hid ?_
    rw [hu.services, hnone, ite_self]

theorem Follows.entered (h : s₁.Follows reg₀) (hsound : s₁.Sound) (hclosed : Closed s₁.nodeDef)
    (hnew : ∀ info ∈ s₁.loaded, (s₁.comps info.comp).id ≠ data.id) (he : s₁.Entered s' data) :
    s'.Follows reg₀ := by
  have hunique := hclosed.unique.services
  have hroom : (s₁.nodeDef.services.map NosServiceDef.serviceId).length ≤ maxServices := by
    rw [List.length_map]
    exact hclosed.few
  have hsub : s₁.localServicesOf data.id ⊆ s₁.nodeDef.services.map NosServiceDef.serviceId :=
    List.map_subset _ List.filter_sublist.subset
  obtain ⟨hall, hrest⟩ := bindServices_listed hsound.distinct h.listed hroom hsub s₁.compCount
    data.thread
  rw [← he.registry] at hall hrest
  have hold : ∀ info ∈ s₁.loaded, s'.comps info.comp = s₁.comps info.comp := fun info hinfo =>
    he.comps _ (hsound.loaded_lt info hinfo)
  constructor
  · rw [he.nodeDef]
    intro svc hsvc hname info hinfo hid
    rcases he.mem_loaded hinfo with hinfo | rfl
    · rw [hold info hinfo] at hid
      refine (h.bound svc hsvc hname info hinfo hid).congr (hrest _ fun hmem => ?_)
      exact hnew info hinfo (hid.trans ((mem_localServicesOf_iff hunique hsvc).mp hmem).1)
    · refine hall _ ((mem_localServicesOf_iff hunique hsvc).mpr ⟨?_, hname⟩)
      exact hid.symm.trans he.instance_id
  · rw [he.nodeDef]
    intro svc hsvc hname hnone
    rw [hrest]
    · refine h.unbound svc hsvc hname fun info hinfo hid => ?_
      refine hnone info ?_ ((congrArg NosComponent.id (hold info hinfo)).trans hid)
      rw [he.loaded]
      exact List.mem_append_left _ hinfo
    · intro hmem
      refine hnone ⟨s₁.compCount, data.libName, data.thread⟩ ?_ ?_
      · rw [he.loaded]
        exact List.mem_append_right _ List.mem_cons_self
      · exact he.instance_id.trans ((mem_localServicesOf_iff hunique hsvc).mp hmem).1.symm
  · rw [he.nodeDef]
    intro svc hsvc hname
    rw [hrest _ fun hmem => hname ((mem_localServicesOf_iff hunique hsvc).mp hmem).2]
    exact h.remote svc hsvc hname
  · rw [he.nodeDef]
    intro id hid
    by_cases hmem : id ∈ s₁.localServicesOf data.id
    · exact hsub hmem
    · rw [hrest id hmem] at hid
      exact h.listed id hid

variable {nodeDef : NosNodeDef} {loads : ℕ → ℕ → Option CompExport} {cmd : NodeCommand}

/-- The tables are sound, the loaded components are those of the definition, and the registry
follows them. -/
structure Upkept (s : NodeTables) (nodeDef : NosNodeDef) (loads : ℕ → ℕ → Option CompExport)
    (reg₀ : ServiceRegistry ℕ ℕ) : Prop where
  sound : s.Sound
  defined : s.Defined nodeDef (CompNode.entered nodeDef loads)
  follows : s.Follows reg₀

theorem Defined.id_mem (h : s.Defined nodeDef (CompNode.entered nodeDef loads))
    (hinfo : info ∈ s.loaded) :
    (s.comps info.comp).id ∈ nodeDef.threads.flatten.map CompDef.id := by
  have hmem := h.loaded.subset (List.mem_map_of_mem hinfo)
  exact List.mem_map_of_mem
    ((CompNode.entered_sublist nodeDef loads).subset (List.mem_map_of_mem hmem))

theorem Upkept.step (h : s.Upkept nodeDef loads reg₀) (hclosed : Closed nodeDef)
    (hs : s.step cmd = some s') : s'.Upkept nodeDef loads reg₀ := by
  have hids : (s.loaded.map fun info => (s.comps info.comp).id).Nodup :=
    h.defined.nodup hclosed.unique.ids
  obtain rfl := h.defined.nodeDef
  rcases step_cases h.sound hs with rfl | ⟨_, info, s₁, -, hinfo, hname, hu, hcases⟩
  · exact h
  have hsound := hu.sound h.sound
  have hfollows := h.follows.unloaded hclosed hids hinfo (h.defined.id_mem hinfo) hu
  rcases hcases with rfl | ⟨hroom, he⟩
  · exact ⟨hsound, hu.defined h.defined, hfollows⟩
  · refine ⟨he.sound hsound hroom, he.defined hu h.defined h.sound hinfo hname, ?_⟩
    refine hfollows.entered hsound (hu.nodeDef.symm ▸ hclosed) (fun info' hinfo' hid => ?_) he
    rw [hu.loaded] at hinfo'
    obtain ⟨hold, hne⟩ := List.mem_filter.mp hinfo'
    rw [hu.comps] at hid
    exact of_decide_eq_true hne
      (congrArg LoadedCompInfo.comp (List.inj_on_of_nodup_map hids hold hinfo hid))

end NodeTables

end GeminiNOS

import GeminiNOS.Component.NodeTables
import GeminiNOS.Component.Startup
import GeminiNOS.Component.UnloadRace
import Mathlib.Data.List.Nodup

/-! # What holds of the tables

A loaded component is one instance, in no thread but its own, and what the registry binds to
an instance is a loaded component that the node definition gives the service to.
-/

namespace GeminiNOS

open Foundations

section Registry

variable {reg : ServiceRegistry ℕ ℕ} {ids : List ℕ} {id x t : ℕ}

theorem count_unregister_le (reg : ServiceRegistry ℕ ℕ) (id : ℕ) :
    (reg.nosServiceUnregisterProvider id).2.count ≤ reg.count := by
  unfold ServiceRegistry.nosServiceUnregisterProvider
  split
  · exact Nat.sub_le _ _
  · exact Nat.le_refl _

theorem count_register_le {write : ServiceSlot ℕ ℕ → ServiceSlot ℕ ℕ}
    (h : reg.count ≤ maxServices) : (reg.register id write).2.count ≤ maxServices := by
  unfold ServiceRegistry.register
  split
  · exact h
  · split <;> rename_i hfull
    · exact h
    · exact Nat.succ_le_of_lt (Nat.not_le.mp hfull)

theorem findServiceEntry_unregister_self (h : reg.Distinct) (id : ℕ) :
    (reg.nosServiceUnregisterProvider id).2.findServiceEntry id = none := by
  rcases ServiceRegistry.unregister_cases h id with ⟨hnone, he⟩ | ⟨-, -, hfind⟩
  · rw [he, hnone]
  · rw [hfind, if_pos rfl]

theorem unregisterServices_spec (h : reg.Distinct) (ids : List ℕ) :
    (unregisterServices reg ids).Distinct ∧ (unregisterServices reg ids).count ≤ reg.count ∧
      ∀ id, (unregisterServices reg ids).findServiceEntry id =
        if id ∈ ids then none else reg.findServiceEntry id := by
  induction ids generalizing reg with
  | nil => exact ⟨h, Nat.le_refl _, fun id => (if_neg List.not_mem_nil).symm⟩
  | cons a ids ih =>
    obtain ⟨hdistinct, hcount, hfind⟩ := ih (h.unregister a)
    refine ⟨hdistinct, Nat.le_trans hcount (count_unregister_le reg a), fun id => ?_⟩
    refine (hfind id).trans ?_
    by_cases hid : id ∈ ids
    · rw [if_pos hid, if_pos (List.mem_cons_of_mem a hid)]
    · rw [if_neg hid]
      by_cases ha : id = a
      · rw [ha, findServiceEntry_unregister_self h, if_pos List.mem_cons_self]
      · rw [ServiceRegistry.findServiceEntry_unregister h ha,
          if_neg fun hmem => (List.mem_cons.mp hmem).elim ha hid]

/-- The entry of a service is bound to an instance and its thread. -/
def BoundTo (reg : ServiceRegistry ℕ ℕ) (id x t : ℕ) : Prop :=
  ∃ slot, reg.findServiceEntry id = some slot ∧ slot.isRemote = false ∧
    slot.localProvider = some x ∧ slot.localThread = some t

theorem bind_cases (h : reg.Distinct) (id x t : ℕ) :
    let reg' := (reg.nosServiceRegisterProviderBind id (some x) (some t)).2
    reg'.Distinct ∧ (∀ id' ≠ id, reg'.findServiceEntry id' = reg.findServiceEntry id') ∧
      (BoundTo reg' id x t ∨
        reg' = reg ∧ reg.findServiceEntry id = none ∧ maxServices ≤ reg.count) := by
  have hid : ∀ slot, (ServiceRegistry.writeProvider id (some x) (some t) slot).serviceId = id :=
    fun _ => rfl
  refine ⟨h.register hid, ?_⟩
  unfold ServiceRegistry.nosServiceRegisterProviderBind ServiceRegistry.register
  cases hi : reg.findIdx ServiceSlot.serviceId id with
  | some i =>
    have hfind : ∀ id', (reg.set i _).find ServiceSlot.serviceId id' = _ :=
      fun id' => h.find_set hi (hid (reg.slots i))
    exact ⟨fun id' hne => (hfind id').trans (if_neg hne),
      .inl ⟨_, (hfind id).trans (if_pos rfl), rfl, rfl, rfl⟩⟩
  | none =>
    dsimp only
    split <;> rename_i hfull
    · refine ⟨fun _ _ => rfl, .inr ⟨rfl, ?_, hfull⟩⟩
      rw [ServiceRegistry.findServiceEntry, SlotTable.find, hi]
      rfl
    · have hfind : ∀ id', (reg.push _).find ServiceSlot.serviceId id' = _ :=
        fun id' => h.find_push hi (hid (reg.slots reg.count))
      exact ⟨fun id' hne => (hfind id').trans (if_neg hne),
        .inl ⟨_, (hfind id).trans (if_pos rfl), rfl, rfl, rfl⟩⟩

theorem bindServices_cases (h : reg.Distinct) (hle : reg.count ≤ maxServices) (ids : List ℕ)
    (x t : ℕ) : (bindServices reg ids x t).Distinct ∧
      (bindServices reg ids x t).count ≤ maxServices ∧
      ∀ id, (bindServices reg ids x t).findServiceEntry id = reg.findServiceEntry id ∨
        id ∈ ids ∧ BoundTo (bindServices reg ids x t) id x t := by
  induction ids generalizing reg with
  | nil => exact ⟨h, hle, fun _ => .inl rfl⟩
  | cons a ids ih =>
    obtain ⟨hdistinct, hother, hbound⟩ := bind_cases h a x t
    obtain ⟨hdistinct', hle', hcases⟩ := ih hdistinct (count_register_le hle)
    refine ⟨hdistinct', hle', fun id => ?_⟩
    rcases hcases id with hsame | ⟨hmem, hto⟩
    · by_cases ha : id = a
      · subst ha
        rcases hbound with ⟨slot, hslot, hto⟩ | ⟨he, -⟩
        · exact .inr ⟨List.mem_cons_self, slot, hsame.trans hslot, hto⟩
        · exact .inl (hsame.trans (congrArg (ServiceRegistry.findServiceEntry · id) he))
      · exact .inl (hsame.trans (hother id ha))
    · exact .inr ⟨List.mem_cons_of_mem a hmem, hto⟩

end Registry

theorem erase_eq_filter_ne {l : List ℕ} (h : l.Nodup) (x : ℕ) : l.erase x = l.filter (· ≠ x) := by
  rw [h.erase_eq_filter]
  refine List.filter_congr fun y _ => ?_
  rw [Bool.eq_iff_iff]
  simp

theorem filter_ne_of_not_mem {l : List ℕ} {x : ℕ} (h : x ∉ l) : l.filter (· ≠ x) = l := by
  refine List.filter_eq_self.mpr fun y hy => decide_eq_true ?_
  rintro rfl
  exact h hy

namespace NodeTables

variable {s s' : NodeTables} {t u x y idx : ℕ} {info : LoadedCompInfo} {name : String}

/-- What holds of the tables after every command. -/
structure Sound (s : NodeTables) : Prop where
  distinct : s.registry.Distinct
  registry_le : s.registry.count ≤ maxServices
  loaded_le : s.loaded.length ≤ maxComponentsPerNode
  loaded_lt : ∀ info ∈ s.loaded, info.comp < s.compCount
  loaded_nodup : (s.loaded.map LoadedCompInfo.comp).Nodup
  thread_le : ∀ t, (s.components t).length ≤ maxCompPerThread
  thread_lt : ∀ t, ∀ x ∈ s.components t, x < s.compCount
  thread_nodup : ∀ t, (s.components t).Nodup
  owner : ∀ info ∈ s.loaded, ∀ t, info.comp ∈ s.components t → t = info.ownerThread
  provides : ∀ id slot, s.registry.findServiceEntry id = some slot →
    ∀ x, slot.localProvider = some x →
      (∃ info ∈ s.loaded, info.comp = x) ∧ id ∈ s.servicesOf (s.comps x).id

theorem findEntry_eq_some (h : s.findEntry name = some (idx, info)) :
    s.loaded[idx]? = some info ∧ (s.comps info.comp).name = name := by
  obtain ⟨i, hi, h⟩ := Option.bind_eq_some_iff.mp h
  obtain ⟨info', hinfo, he⟩ := Option.map_eq_some_iff.mp h
  obtain ⟨rfl, rfl⟩ := Prod.mk.inj he
  obtain ⟨hlt, hname, -⟩ := List.findIdx?_eq_some_iff_getElem.mp hi
  rw [(List.getElem?_eq_some_iff.mp hinfo).2] at hname
  exact ⟨hinfo, of_decide_eq_true hname⟩

theorem unregisterComponent_eq (s : NodeTables) (t x : ℕ) :
    ∃ components, s.nosSchedulerUnregisterComponent t x = { s with components := components } ∧
      (∀ u ≠ t, components u = s.components u) ∧
      (components t).Perm ((s.components t).erase x) := by
  unfold nosSchedulerUnregisterComponent
  cases hi : (s.components t).findIdx? (· = x) with
  | none =>
    refine ⟨s.components, rfl, fun _ _ => rfl, ?_⟩
    have hnot : x ∉ s.components t := by
      intro hmem
      have hne := List.findIdx?_eq_none_iff.mp hi x hmem
      simp at hne
    rw [List.erase_of_not_mem hnot]
  | some i =>
    refine ⟨_, rfl, fun u hu => Function.update_of_ne hu _ _, ?_⟩
    obtain ⟨hlt, hx, -⟩ := List.findIdx?_eq_some_iff_getElem.mp hi
    have hget : (s.components t)[i]? = some x := by
      rw [List.getElem?_eq_getElem hlt, of_decide_eq_true hx]
    have hmem : x ∈ s.components t := List.mem_of_getElem? hget
    rw [Function.update_self]
    exact ((swapRemove_perm hget).trans (List.perm_cons_erase hmem)).cons_inv

theorem registerComponent_eq (s : NodeTables) (t x : ℕ) :
    ∃ components, s.nosSchedulerRegisterComponent t x = { s with components := components } ∧
      (∀ u ≠ t, components u = s.components u) ∧
      components t = if (s.components t).length < maxCompPerThread then s.components t ++ [x]
        else s.components t := by
  unfold nosSchedulerRegisterComponent
  split <;> rename_i hfull
  · exact ⟨s.components, rfl, fun _ _ => rfl, (if_neg (Nat.not_lt.mpr hfull)).symm⟩
  · refine ⟨_, rfl, fun u hu => Function.update_of_ne hu _ _, ?_⟩
    rw [Function.update_self, if_pos (Nat.not_le.mp hfull)]

/-- What `node_unload_component` leaves. -/
structure Unloaded (s s' : NodeTables) (info : LoadedCompInfo) : Prop where
  nodeDef : s'.nodeDef = s.nodeDef
  comps : s'.comps = s.comps
  compCount : s'.compCount = s.compCount
  loaded : s'.loaded = s.loaded.filter fun info' => info'.comp ≠ info.comp
  threads : ∀ t, (s'.components t).Perm ((s.components t).filter (· ≠ info.comp))
  distinct : s'.registry.Distinct
  registry_le : s'.registry.count ≤ s.registry.count
  services : ∀ id, s'.registry.findServiceEntry id =
    if id ∈ s.servicesOf (s.comps info.comp).id then none else s.registry.findServiceEntry id

theorem Sound.unloadEntry (h : s.Sound) (hinfo : s.loaded[idx]? = some info) :
    s.Unloaded (s.unloadEntry idx info) info := by
  obtain ⟨components, heq, hother, hperm⟩ :=
    unregisterComponent_eq s info.ownerThread info.comp
  obtain ⟨hdistinct, hcount, hfind⟩ :=
    unregisterServices_spec h.distinct (s.servicesOf (s.comps info.comp).id)
  rw [NodeTables.unloadEntry, heq]
  refine ⟨rfl, rfl, rfl, eraseIdx_eq_filter h.loaded_nodup hinfo, fun t => ?_, hdistinct, hcount,
    hfind⟩
  by_cases ht : t = info.ownerThread
  · subst ht
    rwa [erase_eq_filter_ne (h.thread_nodup info.ownerThread)] at hperm
  · have hnot : info.comp ∉ s.components t :=
      fun hmem => ht (h.owner info (List.mem_of_getElem? hinfo) t hmem)
    rw [filter_ne_of_not_mem hnot]
    exact .of_eq (hother t ht)

theorem Unloaded.sound (hs : s.Unloaded s' info) (h : s.Sound) : s'.Sound := by
  have hsub : ∀ info' ∈ s'.loaded, info' ∈ s.loaded := fun info' hmem =>
    List.mem_of_mem_filter (hs.loaded ▸ hmem)
  have hthread : ∀ t, ∀ x ∈ s'.components t, x ∈ s.components t := fun t x hx =>
    List.mem_of_mem_filter ((hs.threads t).subset hx)
  refine ⟨hs.distinct, Nat.le_trans hs.registry_le h.registry_le, ?_, fun info' hmem => ?_, ?_,
    fun t => ?_, fun t x hx => ?_, fun t => ?_,
    fun info' hmem t hx => h.owner info' (hsub info' hmem) t (hthread t _ hx),
    fun id slot hslot x hx => ?_⟩
  · rw [hs.loaded]
    exact Nat.le_trans (List.length_filter_le ..) h.loaded_le
  · rw [hs.compCount]
    exact h.loaded_lt info' (hsub info' hmem)
  · rw [hs.loaded]
    exact (List.filter_sublist.map _).nodup h.loaded_nodup
  · rw [(hs.threads t).length_eq]
    exact Nat.le_trans (List.length_filter_le ..) (h.thread_le t)
  · rw [hs.compCount]
    exact h.thread_lt t x (hthread t x hx)
  · exact (hs.threads t).nodup_iff.mpr ((h.thread_nodup t).filter _)
  · rw [hs.services] at hslot
    split at hslot
    · cases hslot
    · rename_i hnot
      obtain ⟨⟨info', hmem, rfl⟩, hprovides⟩ := h.provides id slot hslot x hx
      have hservices : s'.servicesOf (s'.comps info'.comp).id =
          s.servicesOf (s.comps info'.comp).id := by
        rw [hs.comps, servicesOf, hs.nodeDef]
        rfl
      refine ⟨⟨info', ?_, rfl⟩, hservices ▸ hprovides⟩
      rw [hs.loaded]
      refine List.mem_filter.mpr ⟨hmem, decide_eq_true fun heq => hnot ?_⟩
      exact heq ▸ hprovides

/-- What the load of a new instance leaves, if the table of loaded components has room. -/
structure Entered (s s' : NodeTables) (data : ReloadData) : Prop where
  nodeDef : s'.nodeDef = s.nodeDef
  comps : ∀ x < s.compCount, s'.comps x = s.comps x
  instance_id : (s'.comps s.compCount).id = data.id
  instance_name : (s'.comps s.compCount).name = data.name
  compCount : s'.compCount = s.compCount + 1
  loaded : s'.loaded = s.loaded ++ [⟨s.compCount, data.libName, data.thread⟩]
  other : ∀ t ≠ data.thread, s'.components t = s.components t
  thread : s'.components data.thread =
    if (s.components data.thread).length < maxCompPerThread then
      s.components data.thread ++ [s.compCount] else s.components data.thread
  registry : s'.registry =
    bindServices s.registry (s.localServicesOf data.id) s.compCount data.thread

theorem enterInstance_cases (s : NodeTables) (data : ReloadData) (e : CompExport) :
    s.loaded.length < maxComponentsPerNode ∧ s.Entered (s.enterInstance data e) data ∨
      maxComponentsPerNode ≤ s.loaded.length ∧ s.enterInstance data e = s := by
  by_cases hroom : s.loaded.length < maxComponentsPerNode
  · obtain ⟨components, heq, hother, hthread⟩ := registerComponent_eq
      { s with
        comps := Function.update s.comps s.compCount
          ⟨data.id, data.name, .inited, e.hasStart, e.hasOnMsg, data.thread, false, false⟩
        compCount := s.compCount + 1
        loaded := s.loaded ++ [⟨s.compCount, data.libName, data.thread⟩] }
      data.thread s.compCount
    refine .inl ⟨hroom, ?_⟩
    rw [enterInstance, if_pos hroom]
    dsimp only
    rw [heq]
    have hnew : ∀ comp : NosComponent,
        Function.update s.comps s.compCount comp s.compCount = comp := fun comp =>
      Function.update_self _ comp s.comps
    exact ⟨rfl, fun x hx => Function.update_of_ne (Nat.ne_of_lt hx) _ _,
      congrArg NosComponent.id (hnew _), congrArg NosComponent.name (hnew _), rfl, rfl, hother,
      hthread, rfl⟩
  · refine .inr ⟨Nat.not_lt.mp hroom, ?_⟩
    rw [enterInstance, if_neg hroom]

theorem mem_servicesOf_of_local {id a : ℕ} (h : id ∈ s.localServicesOf a) :
    id ∈ s.servicesOf a := by
  obtain ⟨svc, hsvc, rfl⟩ := List.mem_map.mp h
  obtain ⟨hmem, hand⟩ := List.mem_filter.mp hsvc
  exact List.mem_map_of_mem (List.mem_filter.mpr ⟨hmem, decide_eq_true (of_decide_eq_true hand).1⟩)

theorem Entered.mem_loaded {data : ReloadData} (hs : s.Entered s' data) (h : info ∈ s'.loaded) :
    info ∈ s.loaded ∨ info = ⟨s.compCount, data.libName, data.thread⟩ := by
  rw [hs.loaded] at h
  exact (List.mem_append.mp h).imp_right List.mem_singleton.mp

theorem Entered.mem_components {data : ReloadData} (hs : s.Entered s' data)
    (h : x ∈ s'.components t) : x ∈ s.components t ∨ x = s.compCount ∧ t = data.thread := by
  by_cases ht : t = data.thread
  · subst ht
    rw [hs.thread] at h
    split at h
    · exact (List.mem_append.mp h).imp_right fun hmem => ⟨List.mem_singleton.mp hmem, rfl⟩
    · exact .inl h
  · exact .inl (hs.other t ht ▸ h)

theorem Entered.thread_le {data : ReloadData} (hs : s.Entered s' data) (h : s.Sound) (t : ℕ) :
    (s'.components t).length ≤ maxCompPerThread := by
  by_cases ht : t = data.thread
  · subst ht
    rw [hs.thread]
    split <;> rename_i hfits
    · rw [List.length_append, List.length_singleton]
      exact hfits
    · exact h.thread_le _
  · rw [hs.other t ht]
    exact h.thread_le t

theorem Entered.thread_nodup {data : ReloadData} (hs : s.Entered s' data) (h : s.Sound) (t : ℕ) :
    (s'.components t).Nodup := by
  by_cases ht : t = data.thread
  · subst ht
    rw [hs.thread]
    split
    · rw [List.nodup_append]
      refine ⟨h.thread_nodup _, List.nodup_singleton _, fun x hx y hy => ?_⟩
      rw [List.mem_singleton.mp hy]
      exact Nat.ne_of_lt (h.thread_lt _ x hx)
    · exact h.thread_nodup _
  · rw [hs.other t ht]
    exact h.thread_nodup t

theorem Entered.provides {data : ReloadData} (hs : s.Entered s' data) (h : s.Sound) {id : ℕ}
    {slot : ServiceSlot ℕ ℕ} (hslot : s'.registry.findServiceEntry id = some slot)
    (hx : slot.localProvider = some x) :
    (∃ info ∈ s'.loaded, info.comp = x) ∧ id ∈ s'.servicesOf (s'.comps x).id := by
  have hcases := (bindServices_cases h.distinct h.registry_le (s.localServicesOf data.id)
    s.compCount data.thread).2.2 id
  rw [← hs.registry] at hcases
  rw [hs.loaded, servicesOf, hs.nodeDef]
  rcases hcases with hsame | ⟨hmem, slot', hslot', -, hprovider, -⟩
  · obtain ⟨⟨info, hinfo, rfl⟩, hprovides⟩ := h.provides id slot (hsame.symm.trans hslot) x hx
    refine ⟨⟨info, List.mem_append_left _ hinfo, rfl⟩, ?_⟩
    rw [hs.comps _ (h.loaded_lt info hinfo)]
    exact hprovides
  · obtain rfl := Option.some.inj (hslot'.symm.trans hslot)
    obtain rfl := Option.some.inj (hprovider.symm.trans hx)
    refine ⟨⟨_, List.mem_append_right _ List.mem_cons_self, rfl⟩, ?_⟩
    rw [hs.instance_id]
    exact mem_servicesOf_of_local hmem

theorem Entered.sound {data : ReloadData} (hs : s.Entered s' data) (h : s.Sound)
    (hroom : s.loaded.length < maxComponentsPerNode) : s'.Sound := by
  obtain ⟨hdistinct, hcount, -⟩ := bindServices_cases h.distinct h.registry_le
    (s.localServicesOf data.id) s.compCount data.thread
  rw [← hs.registry] at hdistinct hcount
  have hfresh : ∀ info ∈ s.loaded, info.comp ≠ s.compCount := fun info hinfo =>
    Nat.ne_of_lt (h.loaded_lt info hinfo)
  refine ⟨hdistinct, hcount, ?_, fun info hinfo => ?_, ?_, hs.thread_le h, fun t x hx => ?_,
    hs.thread_nodup h, fun info hinfo t hx => ?_,
    fun id slot hslot x hx => hs.provides h hslot hx⟩
  · rw [hs.loaded, List.length_append, List.length_singleton]
    exact hroom
  · rw [hs.compCount]
    rcases hs.mem_loaded hinfo with hold | rfl
    · exact Nat.lt_succ_of_lt (h.loaded_lt info hold)
    · exact Nat.lt_succ_self _
  · rw [hs.loaded, List.map_append, List.map_singleton, List.nodup_append]
    refine ⟨h.loaded_nodup, List.nodup_singleton _, ?_⟩
    intro x hx y hy
    obtain ⟨info, hinfo, rfl⟩ := List.mem_map.mp hx
    rw [List.mem_singleton.mp hy]
    exact hfresh info hinfo
  · rw [hs.compCount]
    rcases hs.mem_components hx with hold | ⟨rfl, -⟩
    · exact Nat.lt_succ_of_lt (h.thread_lt t x hold)
    · exact Nat.lt_succ_self _
  · rcases hs.mem_loaded hinfo with hold | rfl
    · rcases hs.mem_components hx with hmem | ⟨he, -⟩
      · exact h.owner info hold t hmem
      · exact absurd he (hfresh info hold)
    · rcases hs.mem_components hx with hmem | ⟨-, ht⟩
      · exact absurd (h.thread_lt t _ hmem) (Nat.lt_irrefl _)
      · exact ht

def loadData (s : NodeTables) (name : String) (info : LoadedCompInfo) : ReloadData :=
  ⟨(s.comps info.comp).id, name, info.libName, info.ownerThread⟩

/-- What a command does: nothing, an unload, or an unload and a load. -/
theorem step_cases (h : s.Sound) {cmd : NodeCommand} (hs : s.step cmd = some s') :
    s' = s ∨ ∃ idx info s₁, s.findEntry cmd.name = some (idx, info) ∧ info ∈ s.loaded ∧
      (s.comps info.comp).name = cmd.name ∧ s.Unloaded s₁ info ∧
      (s' = s₁ ∨ s₁.loaded.length < maxComponentsPerNode ∧
        s₁.Entered s' (s.loadData cmd.name info)) := by
  have hcmd : s' = (s.nodeUnloadComponent cmd.name).2 ∨
      ∃ loads, s' = (s.nodeReloadComponent cmd.name loads).2 := by
    cases cmd with
    | load name o => exact .inr ⟨_, (Option.some.inj hs).symm⟩
    | reload name o => exact .inr ⟨_, (Option.some.inj hs).symm⟩
    | unload name => exact .inl (Option.some.inj hs).symm
  cases hentry : s.findEntry cmd.name with
  | none =>
    refine .inl ?_
    simp only [nodeUnloadComponent, nodeReloadComponent, hentry] at hcmd
    rcases hcmd with rfl | ⟨loads, rfl⟩ <;> rfl
  | some entry =>
    obtain ⟨idx, info⟩ := entry
    obtain ⟨hinfo, hname⟩ := findEntry_eq_some hentry
    refine .inr ⟨idx, info, _, rfl, List.mem_of_getElem? hinfo, hname, h.unloadEntry hinfo, ?_⟩
    simp only [nodeUnloadComponent, nodeReloadComponent, hentry] at hcmd
    rcases hcmd with rfl | ⟨loads, rfl⟩
    · exact .inl rfl
    · cases loads with
      | none => exact .inl rfl
      | some e => exact (enterInstance_cases _ _ e).symm.imp_left And.right

theorem Sound.step (h : s.Sound) {cmd : NodeCommand} (hs : s.step cmd = some s') : s'.Sound := by
  rcases step_cases h hs with rfl | ⟨idx, info, s₁, -, -, -, hunload, rfl | ⟨hroom, henter⟩⟩
  · exact h
  · exact hunload.sound h
  · exact henter.sound (hunload.sound h) hroom

/-- During `node_setup_routing` the slots lead to loaded components. -/
theorem provider_setupService {node : CompNode} {reg : ServiceRegistry ℕ ℕ}
    (h : ∀ i x, (reg.slots i).localProvider = some x → ∃ info ∈ node.loaded, info.comp = x)
    (svc : NosServiceDef) (i x : ℕ)
    (hx : ((node.setupService reg svc).slots i).localProvider = some x) :
    ∃ info ∈ node.loaded, info.comp = x := by
  unfold CompNode.setupService at hx
  split at hx
  · split at hx
    · rename_i y t hy _
      rcases UnloadNode.provider_bind hx with rfl | hold
      · obtain ⟨info, hfind, rfl⟩ := Option.map_eq_some_iff.mp hy
        exact ⟨info, List.mem_of_find?_eq_some hfind, rfl⟩
      · exact h i x hold
    · exact h i x hx
  · split at hx
    · rcases ServiceRegistry.slots_register reg svc.serviceId
        (ServiceRegistry.writeRemote svc.serviceId (some svc.nodeName) svc.remoteUdsPath) i with
        he | he
      · have hprovider := congrArg ServiceSlot.localProvider he
        exact h i x (hprovider.symm.trans hx)
      · have hprovider := congrArg ServiceSlot.localProvider he
        exact h i x (hprovider.symm.trans hx)
    · exact h i x hx

theorem provider_startup (node : CompNode) (services : List NosServiceDef)
    {reg : ServiceRegistry ℕ ℕ}
    (h : ∀ i x, (reg.slots i).localProvider = some x → ∃ info ∈ node.loaded, info.comp = x) :
    ∀ i x, ((services.foldl (CompNode.setupService node) reg).slots i).localProvider = some x →
      ∃ info ∈ node.loaded, info.comp = x := by
  induction services generalizing reg with
  | nil => exact h
  | cons svc services ih => exact ih (provider_setupService h svc)

theorem registry_le_startup (node : CompNode) (services : List NosServiceDef)
    {reg : ServiceRegistry ℕ ℕ} (h : reg.count ≤ maxServices) :
    (services.foldl (CompNode.setupService node) reg).count ≤ maxServices := by
  induction services generalizing reg with
  | nil => exact h
  | cons svc services ih =>
    refine ih ?_
    unfold CompNode.setupService
    split
    · split
      · exact count_register_le h
      · exact h
    · split
      · exact count_register_le h
      · exact h

theorem sound_startup (nodeDef : NosNodeDef) (loads : ℕ → ℕ → Option CompExport) :
    (startup nodeDef loads).Sound := by
  have henters := CompNode.enters_nodeInitWorkers nodeDef loads
  have hinv := UnloadNode.inv_startup nodeDef loads
  have hsnd : ((CompNode.entered nodeDef loads).zipIdx.map Prod.snd).Nodup := by
    rw [List.zipIdx_map_snd]
    exact List.nodup_range'
  have hthread : ∀ t x, x ∈ (startup nodeDef loads).components t →
      ∃ d, (d, x) ∈ (CompNode.entered nodeDef loads).zipIdx ∧ d.2 = t := by
    intro t x hx
    rw [show (startup nodeDef loads).components t = _ from henters.threads t] at hx
    obtain ⟨d, hd, rfl⟩ := List.mem_map.mp (List.mem_of_mem_take hx)
    obtain ⟨hmem, ht⟩ := List.mem_filter.mp hd
    exact ⟨d.1, hmem, of_decide_eq_true ht⟩
  have hloaded : (startup nodeDef loads).loaded =
      ((CompNode.entered nodeDef loads).zipIdx.map CompNode.recordOf).take maxComponentsPerNode :=
    henters.loaded
  refine ⟨hinv.distinct, registry_le_startup _ _ (Nat.zero_le _), ?_, hinv.loaded_lt, ?_,
    fun t => ?_, fun t x hx => ?_, fun t => ?_, fun info hinfo t hx => ?_,
    fun id slot hslot x hx => ?_⟩
  · rw [hloaded]
    exact List.length_take_le _ _
  · rw [hloaded, List.map_take, List.map_map]
    exact (List.take_sublist _ _).nodup hsnd
  · rw [show (startup nodeDef loads).components t = _ from henters.threads t]
    exact List.length_take_le _ _
  · obtain ⟨d, hd, -⟩ := hthread t x hx
    rw [show (startup nodeDef loads).compCount = _ from henters.compCount]
    exact (List.getElem?_eq_some_iff.mp (List.mem_zipIdx_iff_getElem?.mp hd)).1
  · rw [show (startup nodeDef loads).components t = _ from henters.threads t]
    exact (List.take_sublist _ _).nodup ((List.filter_sublist.map _).nodup hsnd)
  · obtain ⟨d, hd, rfl⟩ := hthread t _ hx
    rw [hloaded] at hinfo
    obtain ⟨d', hd', rfl⟩ := List.mem_map.mp (List.mem_of_mem_take hinfo)
    have hget := List.mem_zipIdx_iff_getElem?.mp hd
    have hget' := List.mem_zipIdx_iff_getElem?.mp hd'
    have heq : d = d'.1 := Option.some.inj (hget.symm.trans hget')
    exact congrArg Prod.snd heq
  · obtain ⟨i, hi, rfl, rfl⟩ := hinv.distinct.find_eq_some.mp hslot
    obtain ⟨-, svc, hsvc, hid, hcomp⟩ := hinv.active i hi x hx
    refine ⟨provider_startup _ _ (fun i x h => by cases h) i x hx, ?_⟩
    rw [servicesOf, ← hid]
    exact List.mem_map_of_mem (List.mem_filter.mpr ⟨hsvc, decide_eq_true hcomp⟩)

theorem sound_of_reachable {nodeDef : NosNodeDef} {loads : ℕ → ℕ → Option CompExport}
    (h : Run.Reachable step (startup nodeDef loads) s) : s.Sound :=
  h.invariant (fun _ _ _ hI hs => hI.step hs) (sound_startup nodeDef loads)

end NodeTables

end GeminiNOS

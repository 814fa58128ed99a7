import GeminiNOS.Component.TablesInvariant

/-! # Reloads as a whole

A reload takes the old instance out of all tables before it knows whether the new one can be
loaded. When the load fails the component is gone. When it succeeds, the new instance gets
the services that the node definition gives to the component on this node, as far as the
registry has room, whatever the old one was bound to.
-/

namespace GeminiNOS

open Foundations

section Registry

variable {reg : ServiceRegistry ℕ ℕ} {ids : List ℕ} {id x t : ℕ}

theorem BoundTo.congr {reg' : ServiceRegistry ℕ ℕ} (h : BoundTo reg id x t)
    (he : reg'.findServiceEntry id = reg.findServiceEntry id) : BoundTo reg' id x t := by
  obtain ⟨slot, hslot, hbound⟩ := h
  exact ⟨slot, he.trans hslot, hbound⟩

theorem BoundTo.ne_none (h : BoundTo reg id x t) : reg.findServiceEntry id ≠ none := by
  obtain ⟨slot, hslot, -⟩ := h
  rw [hslot]
  exact Option.some_ne_none slot

/-- A registration writes nothing new to an entry that it has made. -/
theorem BoundTo.bind_eq_self (h : BoundTo reg id x t) :
    (reg.nosServiceRegisterProviderBind id (some x) (some t)).2 = reg := by
  obtain ⟨slot, hslot, hlocal, hprovider, hthread⟩ := h
  obtain ⟨i, hi, rfl⟩ := Option.map_eq_some_iff.mp hslot
  have hwrite : ServiceRegistry.writeProvider id (some x) (some t) (reg.slots i) =
      reg.slots i := by
    rw [ServiceRegistry.writeProvider, ← hprovider, ← hthread, ← hlocal,
      ← SlotTable.key_of_findIdx hi]
  unfold ServiceRegistry.nosServiceRegisterProviderBind ServiceRegistry.register
  rw [hi]
  dsimp only
  rw [hwrite, SlotTable.set, Function.update_eq_self]

theorem bindServices_full (hids : ∀ id ∈ ids, reg.findServiceEntry id = none ∨ BoundTo reg id x t)
    (hfull : maxServices ≤ reg.count) : bindServices reg ids x t = reg := by
  induction ids with
  | nil => rfl
  | cons a ids ih =>
    have hhead : (reg.nosServiceRegisterProviderBind a (some x) (some t)).2 = reg := by
      rcases hids a List.mem_cons_self with hnone | hto
      · unfold ServiceRegistry.nosServiceRegisterProviderBind ServiceRegistry.register
        rw [Option.map_eq_none_iff.mp hnone]
        dsimp only
        rw [if_pos hfull]
      · exact hto.bind_eq_self
    rw [bindServices, List.foldl_cons, hhead]
    exact ih fun id hid => hids id (List.mem_cons_of_mem a hid)

/-- Of new services the first ones are bound, until the registry is full. -/
theorem bindServices_prefix (h : reg.Distinct) (hle : reg.count ≤ maxServices)
    (hids : ∀ id ∈ ids, reg.findServiceEntry id = none ∨ BoundTo reg id x t) :
    ∃ n, (∀ id ∈ ids.take n, BoundTo (bindServices reg ids x t) id x t) ∧
      (∀ id ∉ ids.take n,
        (bindServices reg ids x t).findServiceEntry id = reg.findServiceEntry id) ∧
      ∀ id ∈ ids, (bindServices reg ids x t).findServiceEntry id = none →
        maxServices ≤ (bindServices reg ids x t).count := by
  induction ids generalizing reg with
  | nil =>
    refine ⟨0, fun id hid => ?_, fun _ _ => rfl, fun id hid => ?_⟩
    · cases hid
    · cases hid
  | cons a ids ih =>
    obtain ⟨hdistinct, hother, hto | ⟨-, -, hfull⟩⟩ := bind_cases h a x t
    · have hle' : (reg.nosServiceRegisterProviderBind a (some x) (some t)).2.count ≤
          maxServices := count_register_le hle
      obtain ⟨n, hbound, hrest, hfull⟩ := ih hdistinct hle' fun id hid => by
        by_cases ha : id = a
        · exact .inr (ha ▸ hto)
        · rw [hother id ha]
          exact (hids id (List.mem_cons_of_mem a hid)).imp_right fun hold =>
            hold.congr (hother id ha)
      have hhead : BoundTo (bindServices reg (a :: ids) x t) a x t := by
        rcases (bindServices_cases hdistinct hle' ids x t).2.2 a with hsame | ⟨-, hto'⟩
        · exact hto.congr hsame
        · exact hto'
      refine ⟨n + 1, fun id hid => ?_, fun id hid => ?_, fun id hid hnone => ?_⟩
      · rcases List.mem_cons.mp hid with rfl | hid
        · exact hhead
        · exact hbound id hid
      · rw [List.take_succ_cons, List.mem_cons, not_or] at hid
        exact (hrest id hid.2).trans (hother id hid.1)
      · rcases List.mem_cons.mp hid with rfl | hid
        · exact absurd hnone hhead.ne_none
        · exact hfull id hid hnone
    · have hsame := bindServices_full hids hfull
      refine ⟨0, fun id hid => ?_, fun _ _ => ?_, fun _ _ _ => ?_⟩
      · cases hid
      · rw [hsame]
      · rw [hsame]
        exact hfull

/-- The first of some services are bound to an instance, and the others have no entry, since the
registry is full. -/
def BoundFirst (reg : ServiceRegistry ℕ ℕ) (ids : List ℕ) (x t : ℕ) : Prop :=
  ∃ n, (∀ id ∈ ids.take n, BoundTo reg id x t) ∧
    ∀ id ∈ ids, id ∉ ids.take n → reg.findServiceEntry id = none ∧ maxServices ≤ reg.count

theorem boundFirst_bindServices (h : reg.Distinct) (hle : reg.count ≤ maxServices)
    (hids : ∀ id ∈ ids, reg.findServiceEntry id = none) :
    BoundFirst (bindServices reg ids x t) ids x t ∧ ∀ id ∉ ids,
      (bindServices reg ids x t).findServiceEntry id = reg.findServiceEntry id := by
  obtain ⟨n, hbound, hrest, hfull⟩ :=
    bindServices_prefix (x := x) (t := t) h hle fun id hid => .inl (hids id hid)
  refine ⟨⟨n, hbound, fun id hid htake => ?_⟩, fun id hid => ?_⟩
  · have hnone := (hrest id htake).trans (hids id hid)
    exact ⟨hnone, hfull id hid hnone⟩
  · exact hrest id fun htake => hid (List.mem_of_mem_take htake)

theorem BoundFirst.boundTo (h : BoundFirst reg ids x t) (hid : id ∈ ids)
    (hentry : reg.findServiceEntry id ≠ none) : BoundTo reg id x t := by
  obtain ⟨n, hbound, hrest⟩ := h
  by_cases htake : id ∈ ids.take n
  · exact hbound id htake
  · exact absurd (hrest id hid htake).1 hentry

theorem BoundFirst.ne_none {reg' : ServiceRegistry ℕ ℕ} {x' t' : ℕ} (h : BoundFirst reg ids x t)
    (h' : BoundFirst reg' ids x' t') (hle : reg.count ≤ maxServices) (hdistinct : reg'.Distinct)
    (hother : ∀ k ∉ ids, reg.findServiceEntry k = none → reg'.findServiceEntry k = none)
    (hid : id ∈ ids) (hentry : reg.findServiceEntry id ≠ none) :
    reg'.findServiceEntry id ≠ none := by
  obtain ⟨n, hbound, hrest⟩ := h
  obtain ⟨n', hbound', hrest'⟩ := h'
  intro hnone
  have htake : id ∈ ids.take n := by
    by_contra hnot
    exact hentry (hrest id hid hnot).1
  have htake' : id ∉ ids.take n' := fun hmem => (hbound' id hmem).ne_none hnone
  have hlt : n' < n := by
    by_contra hge
    exact htake' (List.take_subset_take_left ids (Nat.not_lt.mp hge) htake)
  -- The registry that is full has fewer entries than the other one.
  have hcount : reg'.count < reg.count := by
    refine hdistinct.count_lt (fun k hk => ?_) hnone hentry
    by_cases hmem : k ∈ ids
    · refine (hrest' k hmem fun htake => ?_).1
      exact (hbound k (List.take_subset_take_left ids (Nat.le_of_lt hlt) htake)).ne_none hk
    · exact hother k hmem hk
  have hfull := (hrest' id hid htake').2
  omega

end Registry

/-- What an entry of the registry binds its service to. -/
inductive EntryBinding where
  | provider (comp thread : Option ℕ)
  | remote (nodeName udsPath : String)
  deriving DecidableEq, Repr

def entryBinding (slot : ServiceSlot ℕ ℕ) : EntryBinding :=
  if slot.isRemote then .remote slot.remoteNodeName slot.remoteUdsPath
  else .provider slot.localProvider slot.localThread

def replaceComp (x x' y : ℕ) : ℕ := if y = x then x' else y

/-- A binding in which an instance has taken the place of another one. -/
def EntryBinding.replace (x x' : ℕ) : EntryBinding → EntryBinding
  | .provider comp thread => .provider (comp.map (replaceComp x x')) thread
  | .remote nodeName udsPath => .remote nodeName udsPath

theorem boundTo_iff {reg : ServiceRegistry ℕ ℕ} {id x t : ℕ} : BoundTo reg id x t ↔
    (reg.findServiceEntry id).map entryBinding = some (.provider (some x) (some t)) := by
  rw [Option.map_eq_some_iff, BoundTo]
  refine exists_congr fun slot => and_congr_right fun _ => ?_
  rw [entryBinding]
  cases slot.isRemote <;> simp

section Lists

variable {l : List ℕ} {x x' : ℕ}

theorem map_replaceComp_of_not_mem (h : x ∉ l) (x' : ℕ) : l.map (replaceComp x x') = l := by
  have hsame : ∀ y ∈ l, replaceComp x x' y = y := by
    intro y hy
    refine if_neg ?_
    rintro rfl
    exact h hy
  exact (List.map_congr_left hsame).trans (List.map_id' l)

theorem perm_map_replaceComp (hl : l.Nodup) (h : x ∈ l) (x' : ℕ) :
    (l.filter (· ≠ x) ++ [x']).Perm (l.map (replaceComp x x')) := by
  have hsplit : l.Perm (x :: l.filter (· ≠ x)) := by
    rw [← erase_eq_filter_ne hl]
    exact List.perm_cons_erase h
  have hrest : x ∉ l.filter (· ≠ x) := by simp
  have hmap : (x :: l.filter (· ≠ x)).map (replaceComp x x') = x' :: l.filter (· ≠ x) := by
    rw [List.map_cons, map_replaceComp_of_not_mem hrest, replaceComp, if_pos rfl]
  have hperm := hsplit.map (replaceComp x x')
  rw [hmap] at hperm
  exact (List.perm_append_singleton _ _).trans hperm.symm

end Lists

/-- Every call of `node_load_component_internal` succeeds. -/
def LoadOutcome.Succeeds (o : LoadOutcome) : Prop :=
  o.dlopen = true ∧ o.dlsym = true ∧ o.callocs = true ∧ o.exported = .ok ∧
    (o.hasInit = true → o.inited = .ok)

theorem nodeLoadComponentInternal_cases (o : LoadOutcome) :
    o.Succeeds ∧ nodeLoadComponentInternal o = some o.callbacks ∨
      ¬ o.Succeeds ∧ nodeLoadComponentInternal o = none := by
  unfold LoadOutcome.Succeeds nodeLoadComponentInternal
  grind

namespace NodeTables

variable {s s' s₁ : NodeTables} {info info' : LoadedCompInfo} {name : String} {idx id : ℕ}

def binding (s : NodeTables) (id : ℕ) : Option EntryBinding :=
  (s.registry.findServiceEntry id).map entryBinding

/-- A new instance has taken the place of an old one, and everything else is as it was. -/
structure Replaces (s s' : NodeTables) (info info' : LoadedCompInfo) : Prop where
  fresh : ∀ old ∈ s.loaded, old.comp ≠ info'.comp
  mem : info' ∈ s'.loaded
  id : (s'.comps info'.comp).id = (s.comps info.comp).id
  name : (s'.comps info'.comp).name = (s.comps info.comp).name
  libName : info'.libName = info.libName
  thread : info'.ownerThread = info.ownerThread
  others : s'.loaded.filter (fun i => i.comp ≠ info'.comp) =
    s.loaded.filter fun i => i.comp ≠ info.comp
  comps : ∀ i ∈ s.loaded, i.comp ≠ info.comp → s'.comps i.comp = s.comps i.comp
  threads : ∀ t, (s'.components t).Perm ((s.components t).map (replaceComp info.comp info'.comp))
  bindings : ∀ id, s'.binding id = (s.binding id).map (.replace info.comp info'.comp)

/-- The loaded components, the threads and the bindings are as they were. -/
structure Unchanged (s s' : NodeTables) : Prop where
  loaded : s'.loaded = s.loaded
  comps : ∀ i ∈ s.loaded, s'.comps i.comp = s.comps i.comp
  threads : ∀ t, s'.components t = s.components t
  bindings : ∀ id, s'.binding id = s.binding id

/-- A reload has put a new instance in the place of the old one, or it has failed without effect. -/
def AllOrNothing (s : NodeTables) (info : LoadedCompInfo) (result : NosStatus × NodeTables) :
    Prop :=
  result.1 = .ok ∧ (∃ info', s.Replaces result.2 info info') ∨
    result.1 = .err ∧ s.Unchanged result.2

/-- The load succeeds, and the component provides what it is going to provide: of the services
that the node definition gives it on this node the first ones, and the others only if the
registry is full. No other service of the component has an entry. -/
structure ReloadsInPlace (s : NodeTables) (info : LoadedCompInfo) (o : LoadOutcome) : Prop where
  loads : o.Succeeds
  thread : info.comp ∈ s.components info.ownerThread ∨
    maxCompPerThread ≤ (s.components info.ownerThread).length
  elsewhere : ∀ id ∈ s.servicesOf (s.comps info.comp).id,
    id ∉ s.localServicesOf (s.comps info.comp).id → s.registry.findServiceEntry id = none
  services : BoundFirst s.registry (s.localServicesOf (s.comps info.comp).id) info.comp
    info.ownerThread

/-- A reload with the outcome of its load. -/
theorem reload_cases (h : s.Sound) (hentry : s.findEntry name = some (idx, info))
    (o : LoadOutcome) : ∃ s₁, s.Unloaded s₁ info ∧
      (¬ o.Succeeds ∧ s.nodeReloadComponent name (nodeLoadComponentInternal o) = (.err, s₁) ∨
        o.Succeeds ∧ s₁.loaded.length < maxComponentsPerNode ∧
          ∃ s', s₁.Entered s' (s.loadData name info) ∧
            s.nodeReloadComponent name (nodeLoadComponentInternal o) = (.ok, s')) := by
  obtain ⟨hget, -⟩ := findEntry_eq_some hentry
  have hunload := h.unloadEntry hget
  refine ⟨_, hunload, ?_⟩
  simp only [nodeReloadComponent, nodeUnloadComponent, hentry]
  rcases nodeLoadComponentInternal_cases o with ⟨hok, hload⟩ | ⟨hfails, hload⟩
  · have hroom : (s.unloadEntry idx info).loaded.length < maxComponentsPerNode := by
      rw [hunload.loaded]
      refine Nat.lt_of_lt_of_le (List.length_filter_lt_length_iff_exists.mpr ?_) h.loaded_le
      exact ⟨info, List.mem_of_getElem? hget, by simp⟩
    refine .inr ⟨hok, hroom, _, ?_, by rw [hload]⟩
    rcases enterInstance_cases (s.unloadEntry idx info) (s.loadData name info) o.callbacks with
      ⟨-, henter⟩ | ⟨hfull, -⟩
    · exact henter
    · exact absurd hroom (Nat.not_lt.mpr hfull)
  · exact .inl ⟨hfails, by rw [hload]⟩

theorem entry_of_reload (hu : s.Unloaded s₁ info) (he : s₁.Entered s' (s.loadData name info))
    (h : s.Sound) :
    BoundFirst s'.registry (s.localServicesOf (s.comps info.comp).id) s.compCount
      info.ownerThread ∧
    ∀ id ∉ s.localServicesOf (s.comps info.comp).id, s'.registry.findServiceEntry id =
      if id ∈ s.servicesOf (s.comps info.comp).id then none
      else s.registry.findServiceEntry id := by
  have hreg : s'.registry = bindServices s₁.registry (s.localServicesOf (s.comps info.comp).id)
      s.compCount info.ownerThread := by
    rw [he.registry, hu.compCount, localServicesOf, hu.nodeDef]
    rfl
  obtain ⟨hfirst, hrest⟩ := boundFirst_bindServices (x := s.compCount) (t := info.ownerThread)
    (hu.sound h).distinct (hu.sound h).registry_le fun id hid =>
      (hu.services id).trans (if_pos (mem_servicesOf_of_local hid))
  rw [hreg]
  exact ⟨hfirst, fun id hid => (hrest id hid).trans (hu.services id)⟩

theorem Sound.binding_replace (h : s.Sound) {x : ℕ} (hid : id ∉ s.servicesOf (s.comps x).id)
    (x' : ℕ) : (s.binding id).map (.replace x x') = s.binding id := by
  rw [binding]
  cases hslot : s.registry.findServiceEntry id with
  | none => rfl
  | some slot =>
    refine congrArg some ?_
    rw [entryBinding]
    split
    · rfl
    · rw [EntryBinding.replace]
      cases hprovider : slot.localProvider with
      | none => rfl
      | some y =>
        have hne : y ≠ x := by
          rintro rfl
          exact hid (h.provides id slot hslot y hprovider).2
        rw [Option.map_some, replaceComp, if_neg hne]

theorem binding_eq_none : s.binding id = none ↔ s.registry.findServiceEntry id = none :=
  Option.map_eq_none_iff

theorem Sound.boundTo_of_replace (h : s.Sound) {x t : ℕ}
    (hid : (s.binding id).map (EntryBinding.replace x s.compCount) =
      some (.provider (some s.compCount) (some t))) : BoundTo s.registry id x t := by
  obtain ⟨b, hb, hreplace⟩ := Option.map_eq_some_iff.mp hid
  refine boundTo_iff.mpr (hb.trans (congrArg some ?_))
  obtain ⟨slot, hslot, rfl⟩ := Option.map_eq_some_iff.mp hb
  rw [entryBinding] at hreplace ⊢
  split at hreplace
  · cases hreplace
  · rename_i hlocal
    obtain ⟨hcomp, hthread⟩ := EntryBinding.provider.inj hreplace
    obtain ⟨y, hy, hreplaced⟩ := Option.map_eq_some_iff.mp hcomp
    obtain ⟨⟨info', hinfo', rfl⟩, -⟩ := h.provides id slot hslot y hy
    have hlt := h.loaded_lt info' hinfo'
    rw [replaceComp] at hreplaced
    split at hreplaced
    · rename_i heq
      rw [if_neg hlocal, hy, heq, hthread]
    · omega

/-- Where the bindings of the old instance pass to the new one, the old one is bound to what the new
one is going to be bound to. -/
theorem boundFirst_of_bindings (hu : s.Unloaded s₁ info)
    (he : s₁.Entered s' (s.loadData name info)) (h : s.Sound)
    (hroom : s₁.loaded.length < maxComponentsPerNode)
    (hbindings : ∀ id, s'.binding id = (s.binding id).map (.replace info.comp s.compCount)) :
    (∀ id ∈ s.servicesOf (s.comps info.comp).id,
      id ∉ s.localServicesOf (s.comps info.comp).id → s.registry.findServiceEntry id = none) ∧
    BoundFirst s.registry (s.localServicesOf (s.comps info.comp).id) info.comp
      info.ownerThread := by
  obtain ⟨⟨n, hbound, hrest⟩, hother⟩ := entry_of_reload hu he h
  have hdistinct := (he.sound (hu.sound h) hroom).distinct
  have hnone : ∀ id, s'.registry.findServiceEntry id = none ↔
      s.registry.findServiceEntry id = none := by
    intro id
    rw [← binding_eq_none, hbindings, Option.map_eq_none_iff, binding_eq_none]
  constructor
  · intro id hid hlocal
    rw [← hnone, hother id hlocal, if_pos hid]
  · refine ⟨n, fun id hid => ?_, fun id hid htake => ?_⟩
    · apply h.boundTo_of_replace
      rw [← hbindings]
      exact boundTo_iff.mp (hbound id hid)
    · obtain ⟨hgone, hfull⟩ := hrest id hid htake
      refine ⟨(hnone id).mp hgone, Nat.le_trans hfull ?_⟩
      exact hdistinct.count_le fun k hk => (hnone k).mpr hk

theorem bindings_of_boundFirst (hu : s.Unloaded s₁ info)
    (he : s₁.Entered s' (s.loadData name info)) (h : s.Sound)
    (hroom : s₁.loaded.length < maxComponentsPerNode)
    (helsewhere : ∀ id ∈ s.servicesOf (s.comps info.comp).id,
      id ∉ s.localServicesOf (s.comps info.comp).id → s.registry.findServiceEntry id = none)
    (hbefore : BoundFirst s.registry (s.localServicesOf (s.comps info.comp).id) info.comp
      info.ownerThread) (id : ℕ) :
    s'.binding id = (s.binding id).map (.replace info.comp s.compCount) := by
  obtain ⟨hfirst, hother⟩ := entry_of_reload hu he h
  have hsound' := he.sound (hu.sound h) hroom
  have hkept : ∀ k ∉ s.localServicesOf (s.comps info.comp).id,
      s'.registry.findServiceEntry k = none ↔ s.registry.findServiceEntry k = none := by
    intro k hk
    rw [hother k hk]
    split <;> rename_i hmem
    · exact iff_of_true rfl (helsewhere k hmem hk)
    · exact Iff.rfl
  by_cases hlocal : id ∈ s.localServicesOf (s.comps info.comp).id
  · have hsame : s'.registry.findServiceEntry id ≠ none ↔
        s.registry.findServiceEntry id ≠ none := by
      constructor
      · exact hfirst.ne_none hbefore hsound'.registry_le h.distinct
          (fun k hk => (hkept k hk).mp) hlocal
      · exact hbefore.ne_none hfirst h.registry_le hsound'.distinct
          (fun k hk => (hkept k hk).mpr) hlocal
    by_cases hentry : s.registry.findServiceEntry id = none
    · have hentry' := not_not.mp (mt hsame.mp (not_not.mpr hentry))
      rw [binding, binding, hentry, hentry']
      rfl
    · rw [binding, boundTo_iff.mp (hfirst.boundTo hlocal (hsame.mpr hentry)), binding,
        boundTo_iff.mp (hbefore.boundTo hlocal hentry), Option.map_some, EntryBinding.replace,
        Option.map_some, replaceComp, if_pos rfl]
  · by_cases hid : id ∈ s.servicesOf (s.comps info.comp).id
    · rw [binding, hother id hlocal, if_pos hid, binding, helsewhere id hid hlocal]
      rfl
    · rw [h.binding_replace hid, binding, hother id hlocal, if_neg hid]
      rfl

theorem Unloaded.perm_of_not_mem (hu : s.Unloaded s₁ info) {t : ℕ}
    (hnot : info.comp ∉ s.components t) : (s₁.components t).Perm (s.components t) :=
  filter_ne_of_not_mem hnot ▸ hu.threads t

/-- The new instance gets the place of the old one in its thread exactly if the old one had one
there, or if none of them finds room. -/
theorem threads_iff (hu : s.Unloaded s₁ info) (he : s₁.Entered s' (s.loadData name info))
    (h : s.Sound) (hinfo : info ∈ s.loaded) :
    (∀ t, (s'.components t).Perm ((s.components t).map (replaceComp info.comp s.compCount))) ↔
      info.comp ∈ s.components info.ownerThread ∨
        maxCompPerThread ≤ (s.components info.ownerThread).length := by
  have hother : ∀ t ≠ info.ownerThread,
      (s'.components t).Perm ((s.components t).map (replaceComp info.comp s.compCount)) := by
    intro t ht
    have hnot : info.comp ∉ s.components t := fun hmem => ht (h.owner info hinfo t hmem)
    rw [map_replaceComp_of_not_mem hnot, he.other t ht]
    exact hu.perm_of_not_mem hnot
  have hthread : s'.components info.ownerThread =
      if (s₁.components info.ownerThread).length < maxCompPerThread then
        s₁.components info.ownerThread ++ [s.compCount] else s₁.components info.ownerThread :=
    hu.compCount ▸ he.thread
  have hall : (∀ t, (s'.components t).Perm
        ((s.components t).map (replaceComp info.comp s.compCount))) ↔
      (s'.components info.ownerThread).Perm
        ((s.components info.ownerThread).map (replaceComp info.comp s.compCount)) := by
    refine ⟨fun hperm => hperm _, fun hperm t => ?_⟩
    by_cases ht : t = info.ownerThread
    · exact ht ▸ hperm
    · exact hother t ht
  rw [hall, hthread]
  by_cases hmem : info.comp ∈ s.components info.ownerThread
  · refine iff_of_true ?_ (.inl hmem)
    have hfits : (s₁.components info.ownerThread).length < maxCompPerThread := by
      rw [(hu.threads _).length_eq]
      refine Nat.lt_of_lt_of_le (List.length_filter_lt_length_iff_exists.mpr ?_) (h.thread_le _)
      exact ⟨info.comp, hmem, by simp⟩
    rw [if_pos hfits]
    exact ((hu.threads _).append_right _).trans
      (perm_map_replaceComp (h.thread_nodup _) hmem s.compCount)
  · have hperm := hu.perm_of_not_mem hmem
    rw [map_replaceComp_of_not_mem hmem, hperm.length_eq]
    split <;> rename_i hfits
    · refine iff_of_false (fun happend => ?_) ?_
      · have hlength := happend.length_eq
        rw [List.length_append, hperm.length_eq, List.length_singleton] at hlength
        omega
      · rintro (hmem' | hfull)
        · exact hmem hmem'
        · exact Nat.not_le.mpr hfits hfull
    · exact iff_of_true hperm (.inr (Nat.not_lt.mp hfits))

/-- When the load succeeds, the new instance replaces the old one if the threads and the bindings
are those with the one in the place of the other. -/
theorem replaces_iff (hu : s.Unloaded s₁ info) (he : s₁.Entered s' (s.loadData name info))
    (h : s.Sound) (hname : (s.comps info.comp).name = name) :
    (∃ info', s.Replaces s' info info') ↔
      (∀ t, (s'.components t).Perm
        ((s.components t).map (replaceComp info.comp s.compCount))) ∧
      ∀ id, s'.binding id = (s.binding id).map (.replace info.comp s.compCount) := by
  have hloaded : s'.loaded = (s.loaded.filter fun i => i.comp ≠ info.comp) ++
      [⟨s.compCount, info.libName, info.ownerThread⟩] := by
    rw [he.loaded, hu.loaded, hu.compCount]
    rfl
  constructor
  · rintro ⟨info', hreplaces⟩
    have hmem := hreplaces.mem
    rw [hloaded, List.mem_append, List.mem_singleton] at hmem
    rcases hmem with hold | rfl
    · exact absurd rfl (hreplaces.fresh info' (List.mem_of_mem_filter hold))
    · exact ⟨hreplaces.threads, hreplaces.bindings⟩
  · rintro ⟨hthreads, hbindings⟩
    have hfresh : ∀ old ∈ s.loaded, old.comp ≠ s.compCount := fun old hold =>
      Nat.ne_of_lt (h.loaded_lt old hold)
    refine ⟨⟨s.compCount, info.libName, info.ownerThread⟩, hfresh, ?_, ?_, ?_, rfl, rfl, ?_,
      fun i hi _ => ?_, hthreads, hbindings⟩
    · rw [hloaded]
      exact List.mem_append_right _ List.mem_cons_self
    · rw [← hu.compCount]
      exact he.instance_id
    · rw [← hu.compCount]
      exact he.instance_name.trans hname.symm
    · rw [hloaded, List.filter_append, List.filter_cons_of_neg (by simp), List.filter_nil,
        List.append_nil, List.filter_eq_self]
      exact fun i hi => decide_eq_true (hfresh i (List.mem_of_mem_filter hi))
    · have hlt : i.comp < s₁.compCount := hu.compCount ▸ h.loaded_lt i hi
      rw [he.comps _ hlt, hu.comps]

/-- A reload has its whole effect or none exactly if its load succeeds and the component provides
before it what the new instance is going to provide. -/
theorem reload_allOrNothing_iff {nodeDef : NosNodeDef} {loads : ℕ → ℕ → Option CompExport}
    (h : Run.Reachable step (startup nodeDef loads) s)
    (hentry : s.findEntry name = some (idx, info)) (o : LoadOutcome) :
    s.AllOrNothing info (s.nodeReloadComponent name (nodeLoadComponentInternal o)) ↔
      s.ReloadsInPlace info o := by
  have hsound := sound_of_reachable h
  obtain ⟨hget, hname⟩ := findEntry_eq_some hentry
  have hinfo := List.mem_of_getElem? hget
  obtain ⟨s₁, hu, ⟨hfails, hresult⟩ | ⟨hok, hroom, s', he, hresult⟩⟩ :=
    reload_cases hsound hentry o
  · -- The record of the component is lost.
    rw [hresult]
    refine iff_of_false ?_ fun hplace => hfails hplace.loads
    rintro (⟨hok, -⟩ | ⟨-, hunchanged⟩)
    · cases hok
    · have hloaded := hunchanged.loaded
      dsimp only at hloaded
      rw [hu.loaded, List.filter_eq_self] at hloaded
      exact of_decide_eq_true (hloaded info hinfo) rfl
  · have hiff := replaces_iff hu he hsound hname
    rw [threads_iff hu he hsound hinfo] at hiff
    rw [hresult]
    constructor
    · rintro (⟨-, hreplaces⟩ | ⟨herr, -⟩)
      · obtain ⟨hthread, hbindings⟩ := hiff.mp hreplaces
        obtain ⟨helsewhere, hservices⟩ := boundFirst_of_bindings hu he hsound hroom hbindings
        exact ⟨hok, hthread, helsewhere, hservices⟩
      · cases herr
    · intro hplace
      refine .inl ⟨rfl, hiff.mpr ⟨hplace.thread, ?_⟩⟩
      exact bindings_of_boundFirst hu he hsound hroom hplace.elsewhere hplace.services

/-- The only component of a node is reloaded, and its new instance provides its service. -/
theorem allOrNothing_pongNode :
    let s := startup CompNode.pongNode fun _ _ => some ⟨true, true⟩
    s.AllOrNothing ⟨0, "libcomp-pong.so", 0⟩ (s.nodeReloadComponent "pong"
      (nodeLoadComponentInternal ⟨true, true, true, .ok, true, .ok, ⟨true, true⟩⟩)) := by
  refine (@reload_allOrNothing_iff _ _ "pong" 0 CompNode.pongNode (fun _ _ => some ⟨true, true⟩)
    (.refl _) rfl _).mpr ⟨⟨rfl, rfl, rfl, rfl, fun _ => rfl⟩, .inl (by decide), by decide, 1, ?_,
      by decide⟩
  intro id hid
  obtain rfl := List.mem_singleton.mp hid
  exact ⟨_, rfl, rfl, rfl, rfl⟩

/-- The library cannot be opened any more. The reload fails, and the component is gone. -/
theorem not_allOrNothing_failedLoad :
    let s := startup CompNode.pongNode fun _ _ => some ⟨true, true⟩
    s.findEntry "pong" = some (0, ⟨0, "libcomp-pong.so", 0⟩) ∧
      ¬ s.AllOrNothing ⟨0, "libcomp-pong.so", 0⟩ (s.nodeReloadComponent "pong"
        (nodeLoadComponentInternal ⟨false, true, true, .ok, true, .ok, ⟨true, true⟩⟩)) := by
  refine ⟨rfl, ?_⟩
  rintro (⟨hok, -⟩ | ⟨-, hunchanged⟩)
  · cases hok
  · cases hunchanged.loaded

end NodeTables

end GeminiNOS

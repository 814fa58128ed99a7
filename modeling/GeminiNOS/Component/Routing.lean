import GeminiNOS.Component.TablesInvariant
import Mathlib.Data.List.Induction

/-! # What a node routes at startup

A node binds each service of its own to the loaded component that its definition names, in the
thread that the component is in, and gives each service of another node a route to that. If no
service comes twice and the registry has room for all, each of them has the entry that its own
turn of the loop makes.
-/

namespace GeminiNOS

open Foundations

def RoutedTo (reg : ServiceRegistry ℕ ℕ) (id : ℕ) (nodeName udsPath : String) : Prop :=
  ∃ slot, reg.findServiceEntry id = some slot ∧ slot.isRemote = true ∧
    slot.remoteNodeName = strncpy 31 nodeName ∧ slot.remoteUdsPath = strncpy 107 udsPath

/-- What `node_setup_routing` makes of a service: a binding, a route or nothing. -/
structure SetUp (node : CompNode) (reg : ServiceRegistry ℕ ℕ) (svc : NosServiceDef) : Prop where
  bound : svc.nodeName = node.nodeDef.name → ∀ x t,
    node.nodeGetLoadedCompById svc.providerCompId = some x →
    node.ownerWorker svc.providerCompId = some t → BoundTo reg svc.serviceId x t
  unbound : svc.nodeName = node.nodeDef.name →
    node.nodeGetLoadedCompById svc.providerCompId = none →
      reg.findServiceEntry svc.serviceId = none
  routed : svc.nodeName ≠ node.nodeDef.name → ∀ udsPath, svc.remoteUdsPath = some udsPath →
    udsPath ≠ "" → RoutedTo reg svc.serviceId svc.nodeName udsPath
  unrouted : svc.nodeName ≠ node.nodeDef.name → svc.remoteUdsPath.getD "" = "" →
    reg.findServiceEntry svc.serviceId = none

section Registry

variable {reg reg' : ServiceRegistry ℕ ℕ} {node : CompNode} {svc : NosServiceDef} {id : ℕ}

theorem SetUp.congr (h : SetUp node reg svc)
    (hfind : reg'.findServiceEntry svc.serviceId = reg.findServiceEntry svc.serviceId) :
    SetUp node reg' svc := by
  constructor
  · intro hname x t hx ht
    obtain ⟨slot, hslot, hrest⟩ := h.bound hname x t hx ht
    exact ⟨slot, hfind.trans hslot, hrest⟩
  · exact fun hname hx => hfind.trans (h.unbound hname hx)
  · intro hname udsPath hpath hne
    obtain ⟨slot, hslot, hrest⟩ := h.routed hname udsPath hpath hne
    exact ⟨slot, hfind.trans hslot, hrest⟩
  · exact fun hname hpath => hfind.trans (h.unrouted hname hpath)

theorem register_new (h : reg.Distinct) (hroom : reg.count < maxServices)
    (write : ServiceSlot ℕ ℕ → ServiceSlot ℕ ℕ) (hw : ∀ slot, (write slot).serviceId = id)
    (hnew : reg.findServiceEntry id = none) :
    (reg.register id write).2.Distinct ∧ (reg.register id write).2.count = reg.count + 1 ∧
      ∃ old, ∀ id', (reg.register id write).2.findServiceEntry id' =
        if id' = id then some (write old) else reg.findServiceEntry id' := by
  have hi : reg.findIdx ServiceSlot.serviceId id = none := by
    cases hi : reg.findIdx ServiceSlot.serviceId id with
    | none => rfl
    | some i =>
      rw [ServiceRegistry.findServiceEntry, SlotTable.find, hi] at hnew
      cases hnew
  have hreg : (reg.register id write).2 = reg.push (write (reg.slots reg.count)) := by
    rw [ServiceRegistry.register, hi]
    exact congrArg Prod.snd (if_neg (Nat.not_le.mpr hroom))
  rw [hreg]
  exact ⟨h.push hi (hw _), rfl, _, fun id' => h.find_push hi (hw _)⟩

theorem setUp_setupService (node : CompNode) (h : reg.Distinct) (hroom : reg.count < maxServices)
    (hnew : reg.findServiceEntry svc.serviceId = none) :
    (node.setupService reg svc).Distinct ∧
      (node.setupService reg svc).count ≤ reg.count + 1 ∧
      (∀ id ≠ svc.serviceId,
        (node.setupService reg svc).findServiceEntry id = reg.findServiceEntry id) ∧
      SetUp node (node.setupService reg svc) svc := by
  unfold CompNode.setupService
  split
  · rename_i hname
    split
    · rename_i x t hx ht
      obtain ⟨hdistinct, hcount, old, hfind⟩ := register_new h hroom
        (ServiceRegistry.writeProvider svc.serviceId (some x) (some t)) (fun _ => rfl) hnew
      refine ⟨hdistinct, hcount.le, fun id hid => (hfind id).trans (if_neg hid), ?_⟩
      refine ⟨fun _ y u hy hu => ?_, fun _ hnone => ?_, fun hne => absurd hname hne,
        fun hne => absurd hname hne⟩
      · obtain rfl := Option.some.inj (hx.symm.trans hy)
        obtain rfl := Option.some.inj (ht.symm.trans hu)
        exact ⟨_, (hfind _).trans (if_pos rfl), rfl, rfl, rfl⟩
      · rw [hx] at hnone
        cases hnone
    · rename_i hnot
      exact ⟨h, Nat.le_succ _, fun _ _ => rfl, fun _ x t hx ht => absurd ht (hnot x t hx),
        fun _ _ => hnew, fun hne => absurd hname hne, fun hne => absurd hname hne⟩
  · rename_i hname
    split
    · rename_i hpath
      obtain ⟨udsPath, hsome, hne⟩ := (Option.any_eq_true _ _).mp hpath
      obtain ⟨hdistinct, hcount, old, hfind⟩ := register_new h hroom
        (ServiceRegistry.writeRemote svc.serviceId (some svc.nodeName) svc.remoteUdsPath)
        (fun _ => rfl) hnew
      refine ⟨hdistinct, hcount.le, fun id hid => (hfind id).trans (if_neg hid), ?_⟩
      refine ⟨fun he => absurd he hname, fun he => absurd he hname, fun _ path hpath _ => ?_,
        fun _ hempty => ?_⟩
      · refine ⟨_, (hfind _).trans (if_pos rfl), rfl, rfl, ?_⟩
        rw [ServiceRegistry.writeRemote, hpath]
        rfl
      · rw [hsome, Option.getD_some] at hempty
        exact absurd hempty (of_decide_eq_true hne)
    · rename_i hpath
      refine ⟨h, Nat.le_succ _, fun _ _ => rfl, fun he => absurd he hname,
        fun he => absurd he hname, fun _ path hsome hne => absurd ?_ hpath, fun _ _ => hnew⟩
      rw [hsome]
      exact decide_eq_true hne

theorem setUp_foldl (node : CompNode) {services : List NosServiceDef}
    (hids : (services.map NosServiceDef.serviceId).Nodup) (hroom : services.length ≤ maxServices) :
    let reg := services.foldl (CompNode.setupService node) .zero
    reg.Distinct ∧ reg.count ≤ services.length ∧ (∀ svc ∈ services, SetUp node reg svc) ∧
      ∀ id, id ∉ services.map NosServiceDef.serviceId → reg.findServiceEntry id = none := by
  induction services using List.reverseRecOn with
  | nil =>
    refine ⟨ServiceRegistry.distinct_zero, le_rfl, ?_, fun id _ => ?_⟩
    · exact fun svc hsvc => absurd hsvc List.not_mem_nil
    · exact SlotTable.find_eq_none.mpr fun i hi => absurd hi (Nat.not_lt_zero i)
  | append_singleton services svc ih =>
    rw [List.map_append, List.map_singleton, List.nodup_append] at hids
    obtain ⟨hids, -, hnew⟩ := hids
    rw [List.length_append, List.length_singleton] at hroom
    obtain ⟨hdistinct, hcount, hset, hnone⟩ := ih hids (by omega)
    have hfresh : svc.serviceId ∉ services.map NosServiceDef.serviceId := fun hmem =>
      hnew _ hmem _ (List.mem_singleton_self _) rfl
    obtain ⟨hdistinct', hcount', hother, hlast⟩ :=
      setUp_setupService node hdistinct (by omega) (hnone _ hfresh)
    rw [List.foldl_append, List.foldl_cons, List.foldl_nil]
    refine ⟨hdistinct', ?_, fun svc' hsvc' => ?_, fun id hid => ?_⟩
    · rw [List.length_append, List.length_singleton]
      omega
    · rcases List.mem_append.mp hsvc' with hold | hlast'
      · refine (hset svc' hold).congr (hother _ fun he => hfresh ?_)
        exact he ▸ List.mem_map_of_mem hold
      · rwa [List.mem_singleton.mp hlast']
    · rw [List.map_append, List.mem_append, not_or] at hid
      rw [hother id fun he => hid.2 (List.mem_singleton.mpr he), hnone id hid.1]

end Registry

theorem find?_eq_of_unique {α : Type*} {l : List α} {p : α → Bool} {a : α} (ha : a ∈ l)
    (hp : p a = true) (hunique : ∀ b ∈ l, p b = true → b = a) : l.find? p = some a := by
  cases hfind : l.find? p with
  | none => exact absurd hp (List.find?_eq_none.mp hfind a ha)
  | some b => rw [hunique b (List.mem_of_find?_eq_some hfind) (List.find?_some hfind)]

namespace CompNode

variable {s : CompNode} {defs : List (CompDef × ℕ)} {d : CompDef × ℕ} {x id : ℕ}

theorem workerCount_registerComponent (s : CompNode) (t x : ℕ) :
    (s.nosSchedulerRegisterComponent t x).workerCount = s.workerCount := by
  unfold nosSchedulerRegisterComponent
  dsimp only
  split <;> rfl

theorem workerCount_initComponent (s : CompNode) (t : ℕ) (c : CompDef)
    (loads : Option CompExport) : (s.initComponent t c loads).workerCount = s.workerCount := by
  cases loads with
  | none => rfl
  | some e =>
    rw [initComponent, workerCount_registerComponent]
    split <;> rfl

theorem workerCount_initThread (s : CompNode) (t : ℕ) (comps : List CompDef)
    (loads : ℕ → Option CompExport) :
    (s.initThread t comps loads).workerCount = s.workerCount + 1 := by
  rw [initThread]
  generalize ((comps.takeWhile (·.id ≠ 0)).take maxComponentsPerNode).zipIdx = l
  induction l generalizing s with
  | nil => rfl
  | cons c l ih => rw [List.foldl_cons, ih, workerCount_initComponent]

theorem workerCount_nodeInitWorkers (nodeDef : NosNodeDef) (loads : ℕ → ℕ → Option CompExport) :
    ((zero nodeDef).nodeInitWorkers loads).workerCount =
      (nodeDef.threads.take maxWorkers).length := by
  have hfold : ∀ (l : List (List CompDef × ℕ)) (s : CompNode),
      (l.foldl (fun s td => s.initThread td.2 td.1 (loads td.2)) s).workerCount =
        s.workerCount + l.length := by
    intro l
    induction l with
    | nil => exact fun s => rfl
    | cons td l ih =>
      intro s
      rw [List.foldl_cons, ih, workerCount_initThread, List.length_cons]
      omega
  rw [nodeInitWorkers, hfold, List.length_zipIdx]
  exact Nat.zero_add _

/-- Components with different ids that all fit the table of loaded components. -/
structure Fitting (defs : List (CompDef × ℕ)) : Prop where
  ids : (defs.map fun d => d.1.id).Nodup
  few : defs.length ≤ maxComponentsPerNode

theorem Fitting.eq_of_id (h : Fitting defs) {y : ℕ} {d' : CompDef × ℕ} (hx : defs[x]? = some d)
    (hy : defs[y]? = some d') (hid : d'.1.id = d.1.id) : y = x := by
  have hlt : y < (defs.map fun d => d.1.id).length := by
    rw [List.length_map]
    exact (List.getElem?_eq_some_iff.mp hy).1
  refine (List.getElem?_inj hlt h.ids).mp ?_
  rw [List.getElem?_map, List.getElem?_map, hx, hy, Option.map_some, Option.map_some, hid]

theorem Enters.loaded_eq (h : s.Enters defs) (hfit : Fitting defs) :
    s.loaded = defs.zipIdx.map recordOf := by
  rw [h.loaded, List.take_of_length_le]
  rw [List.length_map, List.length_zipIdx]
  exact hfit.few

theorem Enters.nodeGetLoadedCompById_eq (h : s.Enters defs) (hfit : Fitting defs)
    (hd : defs[x]? = some d) : s.nodeGetLoadedCompById d.1.id = some x := by
  have hfind : (s.loaded.find? fun info => (s.comps info.comp).id = d.1.id) =
      some (recordOf (d, x)) := by
    rw [h.loaded_eq hfit]
    apply find?_eq_of_unique
    · exact List.mem_map_of_mem (List.mk_mem_zipIdx_iff_getElem?.mpr hd)
    · exact decide_eq_true (h.comps x d hd).1
    · intro info hinfo hid
      obtain ⟨⟨d', y⟩, hmem, rfl⟩ := List.mem_map.mp hinfo
      have hd' := List.mk_mem_zipIdx_iff_getElem?.mp hmem
      have hid' : d'.1.id = d.1.id := (h.comps y d' hd').1.symm.trans (of_decide_eq_true hid)
      obtain rfl := hfit.eq_of_id hd hd' hid'
      rw [Option.some.inj (hd'.symm.trans hd)]
  rw [CompNode.nodeGetLoadedCompById, hfind]
  rfl

theorem Enters.nodeGetLoadedCompById_none (h : s.Enters defs)
    (hid : ∀ d ∈ defs, d.1.id ≠ id) : s.nodeGetLoadedCompById id = none := by
  rw [CompNode.nodeGetLoadedCompById, Option.map_eq_none_iff, List.find?_eq_none]
  intro info hinfo he
  rw [h.loaded] at hinfo
  obtain ⟨⟨d, x⟩, hmem, rfl⟩ := List.mem_map.mp (List.mem_of_mem_take hinfo)
  have hd := List.mk_mem_zipIdx_iff_getElem?.mp hmem
  exact hid d (List.mem_of_getElem? hd) ((h.comps x d hd).1.symm.trans (of_decide_eq_true he))

theorem Enters.ownerWorker_eq (h : s.Enters defs) (hfit : Fitting defs)
    (hthread : (defs.filter fun d' => d'.2 = d.2).length ≤ maxCompPerThread)
    (hworker : d.2 < s.workerCount) (hd : defs[x]? = some d) :
    s.ownerWorker d.1.id = some d.2 := by
  apply find?_eq_of_unique
  · exact List.mem_range.mpr hworker
  · refine List.any_eq_true.mpr ⟨x, ?_, decide_eq_true (h.comps x d hd).1⟩
    rw [h.threads, List.take_of_length_le]
    · refine List.mem_map.mpr ⟨(d, x), List.mem_filter.mpr ⟨?_, decide_eq_true rfl⟩, rfl⟩
      exact List.mk_mem_zipIdx_iff_getElem?.mpr hd
    · have hlength : (defs.zipIdx.filter fun d' => d'.1.2 = d.2).length =
          (defs.filter fun d' => d'.2 = d.2).length := by
        conv_rhs => rw [← List.zipIdx_map_fst 0 defs, List.filter_map, List.length_map]
        rfl
      rw [List.length_map, hlength]
      exact hthread
  · intro t _ hany
    obtain ⟨y, hy, hid⟩ := List.any_eq_true.mp hany
    rw [h.threads] at hy
    obtain ⟨⟨d', y'⟩, hmem, rfl⟩ := List.mem_map.mp (List.mem_of_mem_take hy)
    obtain ⟨hmem, ht⟩ := List.mem_filter.mp hmem
    have hd' := List.mk_mem_zipIdx_iff_getElem?.mp hmem
    have hid' : d'.1.id = d.1.id := (h.comps y' d' hd').1.symm.trans (of_decide_eq_true hid)
    obtain rfl := hfit.eq_of_id hd hd' hid'
    rw [← Option.some.inj (hd'.symm.trans hd)]
    exact (of_decide_eq_true ht).symm

end CompNode

end GeminiNOS

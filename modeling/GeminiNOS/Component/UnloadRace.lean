import GeminiNOS.Component.StartOrder
import GeminiNOS.Component.Unload

/-! # The race of unload and dispatch

All services of a component are unregistered before it is stopped, so that a lookup
never finds an entry for a component that is gone. Only an entry found before can
lead there. If no worker holds one when the component is stopped and freed, no call
reaches it, also through entries whose slots change in the meantime.
-/

namespace GeminiNOS.UnloadNode

open Foundations

variable {s s' : UnloadNode} {t x i idx serviceId : ℕ} {hasStop : Bool} {loads : Option CompExport}

def Alive (s : UnloadNode) (x : ℕ) : Prop := s.stopped x = false ∧ s.freed x = false

def Provides (s : UnloadNode) (x serviceId : ℕ) : Prop :=
  ∃ svc ∈ s.nodeDef.services, svc.serviceId = serviceId ∧ svc.providerCompId = (s.comps x).id

/-- What the command line relies on: entries that it has yet to remove, or none for a component that
it stops, and an instance that it binds to services of its own. -/
def CliSound (s : UnloadNode) : UnloadPc → Prop
  | .idle | .load _ => True
  | .unbind _ x services _ => x < s.compCount ∧
    ∀ i < s.registry.count, (s.registry.slots i).localProvider = some x →
      (s.registry.slots i).serviceId ∈ services
  | .stop _ x _ | .free _ x _ => x < s.compCount ∧
    ∀ i < s.registry.count, (s.registry.slots i).localProvider ≠ some x
  | .bind x _ services => x < s.compCount ∧ s.Alive x ∧ ∀ id ∈ services, s.Provides x id

/-- Entries in use lead to components that are there and provide the service, and so do those that
the workers hold. -/
structure Inv (s : UnloadNode) : Prop where
  distinct : s.registry.Distinct
  instance_lt : ∀ i x, (s.registry.slots i).localProvider = some x → x < s.compCount
  loaded_lt : ∀ info ∈ s.loaded, info.comp < s.compCount
  gone_lt : ∀ x, ¬ s.Alive x → x < s.compCount
  active : ∀ i < s.registry.count, ∀ x, (s.registry.slots i).localProvider = some x →
    s.Alive x ∧ s.Provides x (s.registry.slots i).serviceId
  pending : ∀ t i, s.worker t = .call i → ∀ x, s.callee i = some x → s.Alive x
  cli : s.CliSound s.cli
  calls : s.CallsAlive

theorem provider_of_callee (h : s.callee i = some x) :
    (s.registry.slots i).localProvider = some x ∧ (s.comps x).hasOnMsg = true :=
  Option.filter_eq_some_iff.mp h

theorem Inv.nosServiceMsgSend (h : s.Inv) (serviceId : ℕ) :
    (s.nosServiceMsgSend serviceId).Inv := by
  unfold UnloadNode.nosServiceMsgSend
  split
  · rename_i entry _
    split
    · exact h
    · cases entry.localThread with
      | none => exact h
      | some t =>
        simp only [Option.elim]
        split
        · exact { h with }
        · exact h
  · exact h

theorem Inv.setWorker (h : s.Inv) {pc : WorkerPc}
    (hpc : ∀ i, pc = .call i → ∀ x, s.callee i = some x → s.Alive x) :
    (s.setWorker t pc).Inv := by
  refine { h with pending := fun t' i hw => ?_ }
  simp only [UnloadNode.setWorker, Function.update_apply] at hw
  split at hw
  · exact hpc i hw
  · exact h.pending t' i hw

theorem Inv.callOnMsg (h : s.Inv) (hw : s.worker t = .call i) : (s.callOnMsg i).Inv := by
  refine { h with calls := fun call hcall => ?_ }
  rcases List.mem_append.mp hcall with hcall | hcall
  · exact h.calls call hcall
  · obtain ⟨x, hx, rfl⟩ := List.mem_map.mp hcall
    exact h.pending t i hw x (Option.mem_toList.mp hx)

theorem Inv.workerStep (h : s.Inv) (t : ℕ) : (s.workerStep t).Inv := by
  unfold UnloadNode.workerStep
  split
  · split
    · exact h
    · rename_i serviceId rest _
      have hqueue : (s.setQueue t rest).Inv := { h with }
      refine hqueue.setWorker ?_
      rintro i ⟨⟩
  · rename_i serviceId _
    refine h.setWorker fun i hi x hx => ?_
    cases hfind : s.registry.findIdx ServiceSlot.serviceId serviceId with
    | none =>
      rw [hfind] at hi
      cases hi
    | some j =>
      rw [hfind] at hi
      obtain rfl : j = i := by
        injection hi
      exact (h.active j (SlotTable.lt_of_findIdx hfind) x (provider_of_callee hx).1).1
  · rename_i i hw
    refine (h.callOnMsg hw).setWorker ?_
    rintro i ⟨⟩

theorem Inv.beginUnload (h : s.Inv) {info : LoadedCompInfo} (hinfo : info ∈ s.loaded)
    (reload : Option ReloadData) : (s.beginUnload idx info reload).Inv := by
  have hcli : s.CliSound (.unbind idx info.comp (s.servicesOf (s.comps info.comp).id) reload) := by
    refine ⟨h.loaded_lt info hinfo, fun i hi hx => ?_⟩
    obtain ⟨-, svc, hsvc, hid, hcomp⟩ := h.active i hi info.comp hx
    exact List.mem_map.mpr ⟨svc, List.mem_filter.mpr ⟨hsvc, by simpa using hcomp⟩, hid⟩
  unfold UnloadNode.beginUnload nosSchedulerUnregisterComponent
  split <;> exact { h with cli := hcli }

theorem Inv.unbind (h : s.Inv) {services : List ℕ} {reload : Option ReloadData}
    (hcli : s.cli = .unbind idx x (serviceId :: services) reload) :
    Inv { s with
      registry := (s.registry.nosServiceUnregisterProvider serviceId).2
      cli := .unbind idx x services reload } := by
  have hsound := h.cli
  rw [hcli] at hsound
  refine
    { h with
      distinct := h.distinct.unregister serviceId
      instance_lt := fun i y hy => ?_
      active := fun i hi y hy => ?_
      pending := fun t i hw y hy => ?_
      cli := ⟨hsound.1, fun i hi hx => ?_⟩ }
  · rcases ServiceRegistry.slots_unregister s.registry serviceId i with he | ⟨j, -, he⟩
    · exact h.instance_lt i y (he ▸ hy)
    · exact h.instance_lt j y (he ▸ hy)
  · obtain ⟨j, hj, -, he⟩ := ServiceRegistry.slots_unregister_lt h.distinct hi
    simp only [he] at hy ⊢
    exact h.active j hj y hy
  · obtain ⟨hy, hmsg⟩ := provider_of_callee hy
    rcases ServiceRegistry.slots_unregister s.registry serviceId i with he | ⟨j, hj, he⟩
    · exact h.pending t i hw y (Option.filter_eq_some_iff.mpr ⟨he ▸ hy, hmsg⟩)
    · exact (h.active j hj y (he ▸ hy)).1
  · obtain ⟨j, hj, hne, he⟩ := ServiceRegistry.slots_unregister_lt h.distinct hi
    simp only [he] at hx ⊢
    exact (List.mem_cons.mp (hsound.2 j hj hx)).resolve_left hne

theorem provider_bind {reg : ServiceRegistry ℕ ℕ} {thread : Option ℕ} {y : ℕ}
    (h : ((reg.nosServiceRegisterProviderBind serviceId (some x) thread).2.slots i).localProvider =
      some y) : y = x ∨ (reg.slots i).localProvider = some y := by
  rcases ServiceRegistry.slots_register reg serviceId
    (ServiceRegistry.writeProvider serviceId (some x) thread) i with he | he
  · have hprovider := congrArg ServiceSlot.localProvider he
    exact .inl (Option.some.inj (h.symm.trans hprovider))
  · have hprovider := congrArg ServiceSlot.localProvider he
    exact .inr (hprovider.symm.trans h)

theorem Inv.bind (h : s.Inv) {thread : ℕ} {services : List ℕ}
    (hcli : s.cli = .bind x thread (serviceId :: services)) :
    Inv { s with
      registry := (s.registry.nosServiceRegisterProviderBind serviceId (some x) (some thread)).2
      cli := .bind x thread services } := by
  have hsound := h.cli
  rw [hcli] at hsound
  obtain ⟨hlt, halive, hprovides⟩ := hsound
  refine
    { h with
      distinct := h.distinct.register fun _ => rfl
      instance_lt := fun i y hy => ?_
      active := fun i hi y hy => ?_
      pending := fun t i hw y hy => ?_
      cli := ⟨hlt, halive, fun id hid => hprovides id (List.mem_cons_of_mem _ hid)⟩ }
  · rcases provider_bind hy with rfl | hold
    · exact hlt
    · exact h.instance_lt i y hold
  · rcases ServiceRegistry.slots_register_lt hi with ⟨he, hi⟩ | ⟨he, -⟩
    · have hprovider := congrArg ServiceSlot.localProvider he
      obtain ⟨hy', hold⟩ := h.active i hi y (hprovider.symm.trans hy)
      exact ⟨hy', (congrArg ServiceSlot.serviceId he).symm ▸ hold⟩
    · have hprovider := congrArg ServiceSlot.localProvider he
      obtain rfl : y = x := Option.some.inj (hy.symm.trans hprovider)
      have hid := congrArg ServiceSlot.serviceId he
      exact ⟨halive, hid.symm ▸ hprovides _ List.mem_cons_self⟩
  · obtain ⟨hy, hmsg⟩ := provider_of_callee hy
    rcases provider_bind hy with rfl | hold
    · exact halive
    · exact h.pending t i hw y (Option.filter_eq_some_iff.mpr ⟨hold, hmsg⟩)

/-- The end of a component that no entry in use leads to, and no entry that a worker holds. -/
theorem Inv.gone (h : s.Inv) {stopped freed : ℕ → Bool} (pc : UnloadPc) (hlt : x < s.compCount)
    (hstopped : ∀ y, y ≠ x → stopped y = s.stopped y) (hfreed : ∀ y, y ≠ x → freed y = s.freed y)
    (hactive : ∀ i < s.registry.count, (s.registry.slots i).localProvider ≠ some x)
    (hpending : ∀ t slot, s.worker t = .call slot → s.callee slot ≠ some x)
    (hcli : CliSound { s with stopped := stopped, freed := freed, cli := pc } pc) :
    Inv { s with stopped := stopped, freed := freed, cli := pc } := by
  have halive : ∀ y, y ≠ x → s.Alive y → stopped y = false ∧ freed y = false := by
    intro y hne hy
    rw [hstopped y hne, hfreed y hne]
    exact hy
  refine
    { h with
      gone_lt := fun y hy => ?_
      active := fun i hi y hy => ?_
      pending := fun t i hw y hy => ?_
      cli := hcli }
  · by_cases hne : y = x
    · exact hne ▸ hlt
    · exact h.gone_lt y fun hold => hy (halive y hne hold)
  · obtain ⟨hold, hprovides⟩ := h.active i hi y hy
    refine ⟨halive y ?_ hold, hprovides⟩
    rintro rfl
    exact hactive i hi hy
  · refine halive y ?_ (h.pending t i hw y hy)
    rintro rfl
    exact hpending t i hw hy

theorem Inv.loadInstance (h : s.Inv) (data : ReloadData) (e : CompExport) (services : List ℕ)
    (hservices : ∀ id ∈ services, ∃ svc ∈ s.nodeDef.services, svc.serviceId = id ∧
      svc.providerCompId = data.id) :
    Inv { s.loadInstance data e with cli := .bind s.compCount data.thread services } := by
  have hcomps : ∀ y < s.compCount, (s.loadInstance data e).comps y = s.comps y :=
    fun y hy => Function.update_of_ne (Nat.ne_of_lt hy) _ _
  have hnew : (s.loadInstance data e).comps s.compCount =
      ⟨data.id, data.name, .inited, e.hasStart, e.hasOnMsg, data.thread, false, false⟩ :=
    Function.update_self ..
  have halive : s.Alive s.compCount := by
    by_contra hgone
    exact Nat.lt_irrefl _ (h.gone_lt _ hgone)
  refine
    { h with
      instance_lt := fun i y hy => Nat.lt_succ_of_lt (h.instance_lt i y hy)
      loaded_lt := fun info hinfo => ?_
      gone_lt := fun y hy => Nat.lt_succ_of_lt (h.gone_lt y hy)
      active := fun i hi y hy => ?_
      pending := fun t i hw y hy => ?_
      cli := ⟨Nat.lt_succ_self _, halive, fun id hid => ?_⟩ }
  · rcases List.mem_append.mp hinfo with hinfo | hinfo
    · exact Nat.lt_succ_of_lt (h.loaded_lt info hinfo)
    · obtain rfl := List.mem_singleton.mp hinfo
      exact Nat.lt_succ_self _
  · obtain ⟨hold, svc, hsvc, hid, hcomp⟩ := h.active i hi y hy
    refine ⟨hold, svc, hsvc, hid, ?_⟩
    show svc.providerCompId = ((s.loadInstance data e).comps y).id
    rw [hcomps y (h.instance_lt i y hy), hcomp]
  · obtain ⟨hy, hmsg⟩ := provider_of_callee hy
    refine h.pending t i hw y (Option.filter_eq_some_iff.mpr ⟨hy, ?_⟩)
    have hsame := hcomps y (h.instance_lt i y hy)
    rw [← hsame]
    exact hmsg
  · obtain ⟨svc, hsvc, he, hcomp⟩ := hservices id hid
    refine ⟨svc, hsvc, he, ?_⟩
    show svc.providerCompId = ((s.loadInstance data e).comps s.compCount).id
    rw [hnew, hcomp]

theorem Inv.registerComponent (h : s.Inv) (t x : ℕ) :
    (s.nosSchedulerRegisterComponent t x).Inv := by
  unfold nosSchedulerRegisterComponent
  split
  · exact h
  · exact { h with }

theorem registerComponent_setCli (s : UnloadNode) (t x : ℕ) (pc : UnloadPc) :
    nosSchedulerRegisterComponent { s with cli := pc } t x =
      { s.nosSchedulerRegisterComponent t x with cli := pc } := by
  unfold nosSchedulerRegisterComponent
  dsimp only
  split <;> rfl

theorem Inv.setCli (h : s.Inv) {pc : UnloadPc} (hpc : s.CliSound pc) :
    Inv { s with cli := pc } := { h with cli := hpc }

theorem Inv.cliStep (h : s.Inv) (hsafe : s.NoCallPending (.cliStep hasStop loads))
    (hs : s.cliStep hasStop loads = some s') : s'.Inv := by
  have hcli := h.cli
  unfold UnloadNode.cliStep at hs
  split at hs <;> rename_i hpc <;> try rw [hpc] at hcli
  · cases hs
  · obtain rfl := Option.some.inj hs
    exact h.unbind hpc
  · obtain rfl := Option.some.inj hs
    exact h.setCli ⟨hcli.1, fun i hi hx => List.not_mem_nil (hcli.2 i hi hx)⟩
  · rename_i idx x reload
    obtain rfl := Option.some.inj hs
    have hpending := hsafe x (by rw [hpc]; rfl)
    refine h.gone _ hcli.1 (fun y hne => ?_) (fun y _ => rfl) hcli.2 hpending ⟨hcli.1, hcli.2⟩
    split
    · exact Function.update_of_ne hne _ _
    · rfl
  · rename_i idx x reload
    obtain rfl := Option.some.inj hs
    have hpending := hsafe x (by rw [hpc]; rfl)
    have hgone := h.gone ((reload.map .load).getD .idle) hcli.1 (fun y _ => rfl)
      (fun y hne => Function.update_of_ne hne true s.freed) hcli.2 hpending
      (by cases reload <;> trivial)
    exact { hgone with
      loaded_lt := fun info hinfo => h.loaded_lt info ((List.eraseIdx_sublist _ _).subset hinfo) }
  · rename_i data
    split at hs
    · obtain rfl := Option.some.inj hs
      exact h.setCli trivial
    · rename_i e
      split at hs
      · obtain rfl := Option.some.inj hs
        rw [← registerComponent_setCli]
        refine (h.loadInstance data e _ fun id hid => ?_).registerComponent data.thread s.compCount
        obtain ⟨svc, hsvc, he⟩ := List.mem_map.mp hid
        obtain ⟨hmem, hcond⟩ := List.mem_filter.mp hsvc
        exact ⟨svc, hmem, he, (of_decide_eq_true hcond).1⟩
      · obtain rfl := Option.some.inj hs
        exact h.setCli trivial
  · obtain rfl := Option.some.inj hs
    exact h.setCli trivial
  · obtain rfl := Option.some.inj hs
    exact h.bind hpc

theorem Inv.step {a : UnloadAction} (h : s.Inv) (hsafe : s.NoCallPending a)
    (hs : s.step a = some s') : s'.Inv := by
  cases a with
  | send serviceId =>
    obtain rfl := Option.some.inj hs
    exact h.nosServiceMsgSend serviceId
  | worker t =>
    obtain rfl := Option.some.inj hs
    exact h.workerStep t
  | unload name =>
    simp only [UnloadNode.step] at hs
    split at hs
    · obtain ⟨info, hinfo, rfl⟩ := Option.map_eq_some_iff.mp hs
      exact h.beginUnload (List.mem_of_getElem? hinfo) none
    · obtain rfl := Option.some.inj hs
      exact h
    · cases hs
  | reload name =>
    simp only [UnloadNode.step] at hs
    split at hs
    · obtain ⟨info, hinfo, rfl⟩ := Option.map_eq_some_iff.mp hs
      exact h.beginUnload (List.mem_of_getElem? hinfo) _
    · obtain rfl := Option.some.inj hs
      exact h
    · cases hs
  | cliStep hasStop loads => exact h.cliStep hsafe hs

/-- What holds of the registry during startup: its entries lead to loaded components that provide
their services, and its unused slots to none. -/
structure RegistrySound (node : CompNode) (reg : ServiceRegistry ℕ ℕ) : Prop where
  distinct : reg.Distinct
  unused : ∀ i, reg.count ≤ i → (reg.slots i).localProvider = none
  active : ∀ i < reg.count, ∀ x, (reg.slots i).localProvider = some x →
    x < node.compCount ∧ ∃ svc ∈ node.nodeDef.services,
      svc.serviceId = (reg.slots i).serviceId ∧ svc.providerCompId = (node.comps x).id

theorem RegistrySound.zero (node : CompNode) : RegistrySound node ServiceRegistry.zero where
  distinct := ServiceRegistry.distinct_zero
  unused := fun _ _ => rfl
  active := fun _ hi => absurd hi (Nat.not_lt_zero _)

theorem RegistrySound.register {node : CompNode} {reg : ServiceRegistry ℕ ℕ}
    (h : RegistrySound node reg) {write : ServiceSlot ℕ ℕ → ServiceSlot ℕ ℕ}
    (hid : ∀ slot, (write slot).serviceId = serviceId)
    (hprovider : ∀ slot x, (write slot).localProvider = some x →
      slot.localProvider = some x ∨ x < node.compCount ∧ ∃ svc ∈ node.nodeDef.services,
        svc.serviceId = serviceId ∧ svc.providerCompId = (node.comps x).id) :
    RegistrySound node (reg.register serviceId write).2 where
  distinct := h.distinct.register hid
  unused := by
    intro i hi
    obtain ⟨hslot, hi⟩ := ServiceRegistry.slots_register_ge hi
    rw [hslot, h.unused i hi]
  active := by
    intro i hi x hx
    rcases ServiceRegistry.slots_register_lt hi with ⟨he, hi⟩ | ⟨he, hwhere⟩
    · rw [he] at hx ⊢
      exact h.active i hi x hx
    · rw [he] at hx ⊢
      rw [hid]
      rcases hprovider _ x hx with hold | hnew
      · rcases hwhere with ⟨hi, hserviceId⟩ | rfl
        · rw [← hserviceId]
          exact h.active i hi x hold
        · rw [h.unused _ le_rfl] at hold
          cases hold
      · exact hnew

theorem RegistrySound.setupService {node : CompNode} {reg : ServiceRegistry ℕ ℕ}
    (h : RegistrySound node reg) (hloaded : ∀ info ∈ node.loaded, info.comp < node.compCount)
    {svc : NosServiceDef} (hsvc : svc ∈ node.nodeDef.services) :
    RegistrySound node (node.setupService reg svc) := by
  unfold CompNode.setupService
  split
  · split
    · rename_i x t hx _
      obtain ⟨info, hfind, rfl⟩ := Option.map_eq_some_iff.mp hx
      have hlt := hloaded info (List.mem_of_find?_eq_some hfind)
      have hcomp : (node.comps info.comp).id = svc.providerCompId := by
        simpa using List.find?_some hfind
      refine h.register (fun _ => rfl) fun slot y hy => .inr ?_
      obtain rfl := Option.some.inj hy
      exact ⟨hlt, svc, hsvc, rfl, hcomp.symm⟩
    · exact h
  · split
    · exact h.register (fun _ => rfl) fun slot y hy => .inl hy
    · exact h

theorem RegistrySound.foldl {node : CompNode} {reg : ServiceRegistry ℕ ℕ}
    (h : RegistrySound node reg) (hloaded : ∀ info ∈ node.loaded, info.comp < node.compCount)
    (services : List NosServiceDef) (hsub : ∀ svc ∈ services, svc ∈ node.nodeDef.services) :
    RegistrySound node (services.foldl (CompNode.setupService node) reg) := by
  induction services generalizing reg with
  | nil => exact h
  | cons svc services ih =>
    refine ih (h.setupService hloaded (hsub svc List.mem_cons_self)) fun svc' hsvc' => ?_
    exact hsub svc' (List.mem_cons_of_mem svc hsvc')

theorem nodeDef_foldl {α : Type} {f : CompNode → α → CompNode}
    (hf : ∀ s a, (f s a).nodeDef = s.nodeDef) (as : List α) (s : CompNode) :
    (as.foldl f s).nodeDef = s.nodeDef := by
  induction as generalizing s with
  | nil => rfl
  | cons a as ih => exact (ih _).trans (hf s a)

theorem nodeDef_initComponent (s : CompNode) (t : ℕ) (c : CompDef) (loads : Option CompExport) :
    (s.initComponent t c loads).nodeDef = s.nodeDef := by
  cases loads with
  | none => rfl
  | some e =>
    simp only [CompNode.initComponent, CompNode.nosSchedulerRegisterComponent]
    split <;> split <;> rfl

theorem nodeDef_initComponents (s : CompNode) (t : ℕ) (comps : List (CompDef × ℕ))
    (loads : ℕ → Option CompExport) :
    (comps.foldl (fun s c => s.initComponent t c.1 (loads c.2)) s).nodeDef = s.nodeDef :=
  nodeDef_foldl (fun s c => nodeDef_initComponent s t c.1 (loads c.2)) comps s

theorem nodeDef_nodeInitWorkers (s : CompNode) (loads : ℕ → ℕ → Option CompExport) :
    (s.nodeInitWorkers loads).nodeDef = s.nodeDef := by
  unfold CompNode.nodeInitWorkers
  refine nodeDef_foldl (fun s td => ?_) _ s
  exact nodeDef_initComponents s td.2 _ (loads td.2)

theorem inv_startup (nodeDef : NosNodeDef) (loads : ℕ → ℕ → Option CompExport) :
    (startup nodeDef loads).Inv := by
  have hloaded := ((CompNode.sound_zero nodeDef).nodeInitWorkers loads).loaded
  have hdef := nodeDef_nodeInitWorkers (CompNode.zero nodeDef) loads
  have hreg := (RegistrySound.zero _).foldl hloaded nodeDef.services fun svc hsvc => hdef ▸ hsvc
  refine
    { distinct := hreg.distinct
      instance_lt := fun i x hx => ?_
      loaded_lt := hloaded
      gone_lt := fun x hx => absurd ⟨rfl, rfl⟩ hx
      active := fun i hi x hx => ?_
      pending := ?_
      cli := trivial
      calls := fun call hcall => absurd hcall List.not_mem_nil }
  · rcases Nat.lt_or_ge i (startup nodeDef loads).registry.count with hi | hi
    · exact (hreg.active i hi x hx).1
    · exact absurd ((hreg.unused i hi).symm.trans hx) (by simp)
  · refine ⟨⟨rfl, rfl⟩, ?_⟩
    have hprovides := (hreg.active i hi x hx).2
    rw [hdef] at hprovides
    exact hprovides
  · rintro t i ⟨⟩

/-- In a run in which no call is pending on a component when it is stopped or freed, no call of
`on_msg` reaches a component that has been stopped or freed. -/
theorem always_callsAlive (nodeDef : NosNodeDef) (loads : ℕ → ℕ → Option CompExport)
    (actions : List UnloadAction)
    (hsafe : Run.Guarded step NoCallPending (startup nodeDef loads) actions) :
    Run.Always step CallsAlive (startup nodeDef loads) actions :=
  Run.always_of_guarded (I := Inv) (fun _ _ _ h hsafe hs => h.step hsafe hs) (fun _ h => h.calls)
    (inv_startup nodeDef loads) hsafe

/-- A message that waits during a reload goes to the new instance. -/
theorem callsAlive_reload_pongNode : Run.Always step CallsAlive
    (startup CompNode.pongNode fun _ _ => some ⟨true, true⟩)
    [.send 7, .reload "pong", .cliStep true none, .cliStep true none, .cliStep true none,
      .cliStep true none, .cliStep true (some ⟨true, true⟩), .cliStep true none,
      .cliStep true none, .worker 0, .worker 0, .worker 0] := by
  apply always_callsAlive
  refine .cons rfl trivial (.cons rfl trivial (.cons rfl ?_ (.cons rfl ?_ (.cons rfl ?_
    (.cons rfl ?_ (.cons rfl ?_ (.cons rfl ?_ (.cons rfl ?_ (.cons rfl trivial
      (.cons rfl trivial (.cons rfl trivial trivial)))))))))))
  · rintro x ⟨⟩
  · rintro x ⟨⟩
  · rintro x - t slot ⟨⟩
  · rintro x - t slot ⟨⟩
  · rintro x ⟨⟩
  · rintro x ⟨⟩
  · rintro x ⟨⟩

/-- A worker that has looked up its entry before the unload calls the component after it. -/
theorem not_callsAlive_unload_after_lookup : ¬ Run.Always step CallsAlive
    (startup CompNode.pongNode fun _ _ => some ⟨true, true⟩)
    [.send 7, .worker 0, .worker 0, .unload "pong", .cliStep true none, .cliStep true none,
      .cliStep true none, .cliStep true none, .worker 0] := by
  intro h
  have hcalls := (h.last rfl) ⟨0, true, true⟩ List.mem_cons_self
  exact absurd hcalls.1 (by decide)

end GeminiNOS.UnloadNode

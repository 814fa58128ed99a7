import GeminiNOS.Component.Startup
import GeminiNOS.Component.UnloadRace

/-! # What leads to a component

The queues, the registry, the workers and the command line lead to the instances of a component. On
a node they do so on the thread that its node definition gives the component to, through all loads
and unloads that leave the workers alone.
-/

namespace GeminiNOS

open Foundations

/-- The command line takes a component out of the registry, or ends it. -/
def UnloadPc.Unloading : UnloadPc → Prop
  | .unbind _ _ _ _ | .stop _ _ _ | .free _ _ _ => True
  | _ => False

def Belongs (defs : List (CompDef × ℕ)) (c : NosComponent) (t : ℕ) : Prop :=
  ∃ d ∈ defs, d.1.id = c.id ∧ d.1.name = c.name ∧ d.2 = t

def ServedBy (nodeDef : NosNodeDef) (defs : List (CompDef × ℕ)) (id t : ℕ) : Prop :=
  ∃ svc ∈ nodeDef.services, svc.serviceId = id ∧ ∃ d ∈ defs, d.1.id = svc.providerCompId ∧ d.2 = t

def ReloadData.Placed (defs : List (CompDef × ℕ)) (data : ReloadData) : Prop :=
  ∃ d ∈ defs, d.1.id = data.id ∧ d.1.name = data.name ∧ d.2 = data.thread

section Definitions

variable {nodeDef : NosNodeDef} {defs : List (CompDef × ℕ)} {c : NosComponent} {id t : ℕ}

/-- The thread of the service of an instance is that of the instance. -/
theorem ServedBy.belongs (h : ServedBy nodeDef defs id t)
    (hids : (defs.map fun d => d.1.id).Nodup)
    (hservices : (nodeDef.services.map NosServiceDef.serviceId).Nodup)
    (hprovides : ∃ svc ∈ nodeDef.services, svc.serviceId = id ∧ svc.providerCompId = c.id)
    (hplaced : ∃ t', Belongs defs c t') : Belongs defs c t := by
  obtain ⟨svc, hsvc, rfl, d, hd, hid, rfl⟩ := h
  obtain ⟨svc', hsvc', hsame, hcomp⟩ := hprovides
  obtain rfl := List.inj_on_of_nodup_map hservices hsvc' hsvc hsame
  obtain ⟨-, d', hd', hid', hname, -⟩ := hplaced
  obtain rfl := List.inj_on_of_nodup_map hids hd' hd (by rw [hid', hid, hcomp])
  exact ⟨d', hd', hid', hname, rfl⟩

end Definitions

namespace UnloadNode

/-- The command line unloads a component only while no worker stands between its lookup and its
call. -/
def Quiet (s : UnloadNode) : UnloadAction → Prop
  | .cliStep _ _ => s.cli.Unloading → ∀ t i, s.worker t ≠ .call i
  | _ => True

variable {s s' : UnloadNode} {nodeDef : NosNodeDef} {defs : List (CompDef × ℕ)}
  {t x i idx serviceId : ℕ} {hasStop : Bool} {loads : Option CompExport} {pc : UnloadPc}

/-- The local entries of a registry are for the threads of their providers. -/
def EntriesPlaced (nodeDef : NosNodeDef) (defs : List (CompDef × ℕ)) (reg : ServiceRegistry ℕ ℕ) :
    Prop :=
  ∀ i < reg.count, (reg.slots i).isRemote = false → ∀ t, (reg.slots i).localThread = some t →
    ServedBy nodeDef defs (reg.slots i).serviceId t

theorem EntriesPlaced.register {reg : ServiceRegistry ℕ ℕ} (h : EntriesPlaced nodeDef defs reg)
    {write : ServiceSlot ℕ ℕ → ServiceSlot ℕ ℕ}
    (hwrite : ∀ slot, (write slot).isRemote = false → ∀ t, (write slot).localThread = some t →
      ServedBy nodeDef defs (write slot).serviceId t) :
    EntriesPlaced nodeDef defs (reg.register serviceId write).2 := by
  intro i hi hlocal t ht
  rcases ServiceRegistry.slots_register_lt hi with ⟨he, hi⟩ | ⟨he, -⟩
  · rw [he] at hlocal ht ⊢
    exact h i hi hlocal t ht
  · rw [he] at hlocal ht ⊢
    exact hwrite _ hlocal t ht

def WorkerPlaced (s : UnloadNode) (nodeDef : NosNodeDef) (defs : List (CompDef × ℕ)) (t : ℕ) :
    WorkerPc → Prop
  | .idle => True
  | .lookup serviceId => ServedBy nodeDef defs serviceId t
  | .call i => i < s.registry.count ∧ ServedBy nodeDef defs (s.registry.slots i).serviceId t

def CliPlaced (nodeDef : NosNodeDef) (defs : List (CompDef × ℕ)) : UnloadPc → Prop
  | .idle => True
  | .unbind _ _ _ reload | .stop _ _ reload | .free _ _ reload =>
    ∀ data, reload = some data → data.Placed defs
  | .load data => data.Placed defs
  | .bind _ t services => ∀ id ∈ services, ServedBy nodeDef defs id t

/-- There is such an instance, and its component is defined for the thread. -/
def Hosts (s : UnloadNode) (defs : List (CompDef × ℕ)) (x t : ℕ) : Prop :=
  x < s.compCount ∧ Belongs defs (s.comps x) t

/-- Everything that leads to an instance is on the thread that its component is defined for. -/
structure Placed (s : UnloadNode) (nodeDef : NosNodeDef) (defs : List (CompDef × ℕ)) : Prop where
  nodeDef_eq : s.nodeDef = nodeDef
  instances : ∀ x < s.compCount, ∃ t, Belongs defs (s.comps x) t
  loaded : ∀ info ∈ s.loaded, Belongs defs (s.comps info.comp) info.ownerThread
  components : ∀ t, ∀ x ∈ s.components t, s.Hosts defs x t
  entries : EntriesPlaced nodeDef defs s.registry
  queues : ∀ t, ∀ id ∈ s.msgQueue t, ServedBy nodeDef defs id t
  workers : ∀ t, s.WorkerPlaced nodeDef defs t (s.worker t)
  cli : CliPlaced nodeDef defs s.cli

theorem Placed.belongs_of_call (h : s.Placed nodeDef defs) (hinv : s.Inv)
    (hids : (defs.map fun d => d.1.id).Nodup)
    (hservices : (nodeDef.services.map NosServiceDef.serviceId).Nodup)
    (hw : s.worker t = .call i) (hx : s.callee i = some x) : s.Hosts defs x t := by
  have hworker := h.workers t
  rw [hw] at hworker
  obtain ⟨hi, hserved⟩ := hworker
  obtain ⟨hprovider, -⟩ := provider_of_callee hx
  have hlt := hinv.instance_lt i x hprovider
  obtain ⟨-, hprovides⟩ := hinv.active i hi x hprovider
  rw [Provides, h.nodeDef_eq] at hprovides
  exact ⟨hlt, hserved.belongs hids hservices hprovides (h.instances x hlt)⟩

theorem Placed.nosServiceMsgSend (h : s.Placed nodeDef defs) (hinv : s.Inv) (serviceId : ℕ) :
    (s.nosServiceMsgSend serviceId).Placed nodeDef defs := by
  unfold UnloadNode.nosServiceMsgSend
  split
  · rename_i entry hentry
    obtain ⟨i, hi, rfl, hid⟩ := hinv.distinct.find_eq_some.mp hentry
    split
    · exact h
    · rename_i hlocal
      cases hthread : (s.registry.slots i).localThread with
      | none => exact h
      | some t =>
        simp only [Option.elim]
        split
        · refine { h with queues := fun t' id hmem => ?_ }
          simp only [setQueue, Function.update_apply] at hmem
          split at hmem
          · rename_i ht
            subst ht
            rcases List.mem_append.mp hmem with hold | hnew
            · exact h.queues t' id hold
            · rw [List.mem_singleton.mp hnew, ← hid]
              exact h.entries i hi (Bool.eq_false_iff.mpr hlocal) t' hthread
          · exact h.queues t' id hmem
        · exact h
  · exact h

theorem Placed.setWorker (h : s.Placed nodeDef defs) {pc : WorkerPc}
    (hpc : s.WorkerPlaced nodeDef defs t pc) : (s.setWorker t pc).Placed nodeDef defs := by
  refine { h with workers := fun t' => ?_ }
  simp only [UnloadNode.setWorker, Function.update_apply]
  split
  · rename_i ht
    subst ht
    exact hpc
  · exact h.workers t'

theorem Placed.workerStep (h : s.Placed nodeDef defs) (t : ℕ) :
    (s.workerStep t).Placed nodeDef defs := by
  have hworker := h.workers t
  unfold UnloadNode.workerStep
  split <;> rename_i hw
  · split
    · exact h
    · rename_i serviceId rest hqueue
      have hqueues : (s.setQueue t rest).Placed nodeDef defs := by
        refine { h with queues := fun t' id hmem => ?_ }
        simp only [setQueue, Function.update_apply] at hmem
        split at hmem
        · rename_i ht
          subst ht
          exact h.queues t' id (hqueue ▸ List.mem_cons_of_mem _ hmem)
        · exact h.queues t' id hmem
      exact hqueues.setWorker (h.queues t serviceId (hqueue ▸ List.mem_cons_self))
  · rename_i serviceId
    rw [hw] at hworker
    apply h.setWorker
    cases hfind : s.registry.findIdx ServiceSlot.serviceId serviceId with
    | none => trivial
    | some i =>
      refine ⟨SlotTable.lt_of_findIdx hfind, ?_⟩
      rw [SlotTable.key_of_findIdx hfind]
      exact hworker
  · rename_i i
    have hcall : (s.callOnMsg i).Placed nodeDef defs := { h with }
    exact hcall.setWorker trivial

theorem Placed.setCli (h : s.Placed nodeDef defs) (hpc : CliPlaced nodeDef defs pc) :
    Placed { s with cli := pc } nodeDef defs := { h with cli := hpc }

theorem Placed.beginUnload (h : s.Placed nodeDef defs) {info : LoadedCompInfo}
    {reload : Option ReloadData} (hreload : ∀ data, reload = some data → data.Placed defs) :
    (s.beginUnload idx info reload).Placed nodeDef defs := by
  unfold UnloadNode.beginUnload nosSchedulerUnregisterComponent
  split
  · exact h.setCli hreload
  · refine { h with components := fun t x hx => ?_, cli := hreload }
    simp only [Function.update_apply] at hx
    split at hx
    · rename_i ht
      subst ht
      exact h.components _ x (mem_of_mem_swapRemove hx)
    · exact h.components t x hx

theorem Placed.bind (h : s.Placed nodeDef defs) {thread : ℕ} {services : List ℕ}
    (hcli : s.cli = .bind x thread (serviceId :: services)) :
    Placed { s with
      registry := (s.registry.nosServiceRegisterProviderBind serviceId (some x) (some thread)).2
      cli := .bind x thread services } nodeDef defs := by
  have hplaced := h.cli
  rw [hcli] at hplaced
  refine { h with
    entries := h.entries.register fun slot _ t ht => ?_
    workers := fun t => ?_
    cli := fun id hid => hplaced id (List.mem_cons_of_mem _ hid) }
  · obtain rfl : thread = t := Option.some.inj ht
    exact hplaced serviceId List.mem_cons_self
  · have hworker := h.workers t
    revert hworker
    dsimp only
    cases s.worker t with
    | idle => exact id
    | lookup id => exact fun hserved => hserved
    | call i =>
      rintro ⟨hi, hserved⟩
      have hi' : i < (s.registry.nosServiceRegisterProviderBind serviceId (some x)
          (some thread)).2.count := by
        by_contra hge
        obtain ⟨-, hle⟩ := ServiceRegistry.slots_register_ge (Nat.not_lt.mp hge)
        exact Nat.not_le.mpr hi hle
      refine ⟨hi', ?_⟩
      rcases ServiceRegistry.slots_register_lt hi' with ⟨he, -⟩ | ⟨he, ⟨-, hid⟩ | hcount⟩
      · exact (congrArg ServiceSlot.serviceId he).symm ▸ hserved
      · have hsame := congrArg ServiceSlot.serviceId he
        rw [hid] at hserved
        exact hsame.symm ▸ hserved
      · exact absurd hcount (Nat.ne_of_lt hi)

theorem Placed.unbind (h : s.Placed nodeDef defs) (hinv : s.Inv)
    (hquiet : ∀ t i, s.worker t ≠ .call i) {services : List ℕ} {reload : Option ReloadData}
    (hcli : s.cli = .unbind idx x (serviceId :: services) reload) :
    Placed { s with
      registry := (s.registry.nosServiceUnregisterProvider serviceId).2
      cli := .unbind idx x services reload } nodeDef defs := by
  have hplaced := h.cli
  rw [hcli] at hplaced
  refine { h with
    entries := fun i hi hlocal t ht => ?_
    workers := fun t => ?_
    cli := hplaced }
  · obtain ⟨j, hj, -, he⟩ := ServiceRegistry.slots_unregister_lt hinv.distinct hi
    simp only [he] at hlocal ht ⊢
    exact h.entries j hj hlocal t ht
  · have hworker := h.workers t
    dsimp only
    cases hw : s.worker t with
    | idle => trivial
    | lookup id =>
      rw [hw] at hworker
      exact hworker
    | call i => exact absurd hw (hquiet t i)

theorem Placed.registerComponent (h : s.Placed nodeDef defs) (hhosts : s.Hosts defs x t) :
    (s.nosSchedulerRegisterComponent t x).Placed nodeDef defs := by
  unfold nosSchedulerRegisterComponent
  split
  · exact h
  · refine { h with components := fun t' y hy => ?_ }
    simp only [Function.update_apply] at hy
    split at hy
    · rename_i ht
      subst ht
      rcases List.mem_append.mp hy with hold | hnew
      · exact h.components _ y hold
      · obtain rfl := List.mem_singleton.mp hnew
        exact hhosts
    · exact h.components t' y hy

theorem Placed.loadInstance (h : s.Placed nodeDef defs) (hinv : s.Inv) {data : ReloadData}
    (hdata : data.Placed defs) (e : CompExport) {services : List ℕ}
    (hservices : ∀ id ∈ services, ServedBy nodeDef defs id data.thread) :
    Placed { (s.loadInstance data e).nosSchedulerRegisterComponent data.thread s.compCount with
      cli := .bind s.compCount data.thread services } nodeDef defs := by
  have hcomps : ∀ y < s.compCount, (s.loadInstance data e).comps y = s.comps y :=
    fun y hy => Function.update_of_ne (Nat.ne_of_lt hy) _ _
  have hnew : Belongs defs ((s.loadInstance data e).comps s.compCount) data.thread := by
    obtain ⟨d, hd, hid, hname, ht⟩ := hdata
    refine ⟨d, hd, ?_, ?_, ht⟩
    · simpa [UnloadNode.loadInstance] using hid
    · simpa [UnloadNode.loadInstance] using hname
  rw [← registerComponent_setCli]
  refine Placed.registerComponent (s := { s.loadInstance data e with
    cli := .bind s.compCount data.thread services }) ?_ ⟨Nat.lt_succ_self _, hnew⟩
  refine { h with
    instances := fun y hy => ?_
    loaded := fun info hinfo => ?_
    components := fun t y hy => ?_
    cli := hservices }
  · rcases Nat.lt_succ_iff_lt_or_eq.mp hy with hlt | rfl
    · dsimp only
      rw [hcomps y hlt]
      exact h.instances y hlt
    · exact ⟨_, hnew⟩
  · rcases List.mem_append.mp hinfo with hold | hinfo
    · dsimp only
      rw [hcomps _ (hinv.loaded_lt info hold)]
      exact h.loaded info hold
    · obtain rfl := List.mem_singleton.mp hinfo
      exact hnew
  · obtain ⟨hlt, hbelongs⟩ := h.components t y hy
    refine ⟨Nat.lt_succ_of_lt hlt, ?_⟩
    dsimp only
    rw [hcomps y hlt]
    exact hbelongs

theorem Placed.cliStep (h : s.Placed nodeDef defs) (hinv : s.Inv)
    (hquiet : s.Quiet (.cliStep hasStop loads)) (hs : s.cliStep hasStop loads = some s') :
    s'.Placed nodeDef defs := by
  have hcli := h.cli
  unfold UnloadNode.cliStep at hs
  split at hs <;> rename_i hpc <;> try rw [hpc] at hcli
  · cases hs
  · obtain rfl := Option.some.inj hs
    exact h.unbind hinv (hquiet (hpc ▸ trivial)) hpc
  · obtain rfl := Option.some.inj hs
    exact h.setCli hcli
  · obtain rfl := Option.some.inj hs
    exact { h with cli := hcli }
  · rename_i idx x reload
    obtain rfl := Option.some.inj hs
    refine { h with
      loaded := fun info hinfo => h.loaded info ((List.eraseIdx_sublist _ _).subset hinfo)
      cli := ?_ }
    cases reload with
    | none => trivial
    | some data => exact hcli data rfl
  · rename_i data
    split at hs
    · obtain rfl := Option.some.inj hs
      exact h.setCli trivial
    · rename_i e
      split at hs
      · obtain rfl := Option.some.inj hs
        refine h.loadInstance hinv hcli e fun id hid => ?_
        obtain ⟨svc, hsvc, rfl⟩ := List.mem_map.mp hid
        obtain ⟨hmem, hcond⟩ := List.mem_filter.mp hsvc
        obtain ⟨d, hd, hdid, -, ht⟩ := hcli
        rw [h.nodeDef_eq] at hmem
        exact ⟨svc, hmem, rfl, d, hd, hdid.trans (of_decide_eq_true hcond).1.symm, ht⟩
      · obtain rfl := Option.some.inj hs
        exact h.setCli trivial
  · obtain rfl := Option.some.inj hs
    exact h.setCli trivial
  · obtain rfl := Option.some.inj hs
    exact h.bind hpc

theorem Placed.step {a : UnloadAction} (h : s.Placed nodeDef defs) (hinv : s.Inv)
    (hquiet : s.Quiet a) (hs : s.step a = some s') : s'.Placed nodeDef defs := by
  cases a with
  | send serviceId =>
    obtain rfl := Option.some.inj hs
    exact h.nosServiceMsgSend hinv serviceId
  | worker t =>
    obtain rfl := Option.some.inj hs
    exact h.workerStep t
  | unload name =>
    simp only [UnloadNode.step] at hs
    split at hs
    · obtain ⟨info, -, rfl⟩ := Option.map_eq_some_iff.mp hs
      exact h.beginUnload (by rintro data ⟨⟩)
    · obtain rfl := Option.some.inj hs
      exact h
    · cases hs
  | reload name =>
    simp only [UnloadNode.step] at hs
    split at hs
    · rename_i idx _ hfind
      obtain ⟨info, hinfo, rfl⟩ := Option.map_eq_some_iff.mp hs
      refine h.beginUnload ?_
      rintro data ⟨⟩
      obtain ⟨d, hd, hid, hname, ht⟩ := h.loaded info (List.mem_of_getElem? hinfo)
      refine ⟨d, hd, hid, hname.trans ?_, ht⟩
      obtain ⟨hlt, hsame, -⟩ := List.findIdx?_eq_some_iff_getElem.mp hfind
      rw [List.getElem?_eq_getElem hlt] at hinfo
      obtain rfl := Option.some.inj hinfo
      exact of_decide_eq_true hsame
    · obtain rfl := Option.some.inj hs
      exact h
    · cases hs
  | cliStep hasStop loads => exact h.cliStep hinv hquiet hs

theorem Quiet.noCallPending {a : UnloadAction} (h : s.Quiet a) : s.NoCallPending a := by
  cases a with
  | cliStep hasStop loads =>
    intro x hx t i hw
    refine absurd hw (h ?_ t i)
    cases hcli : s.cli <;> rw [hcli] at hx <;> trivial
  | _ => trivial

def Extends (s' s : UnloadNode) : Prop :=
  s.compCount ≤ s'.compCount ∧ ∀ y < s.compCount, s'.comps y = s.comps y

theorem extends_of_comps (hcount : s'.compCount = s.compCount) (hcomps : s'.comps = s.comps) :
    s'.Extends s := ⟨hcount.ge, fun _ _ => by rw [hcomps]⟩

theorem extends_registerComponent (s : UnloadNode) (t x : ℕ) :
    (s.nosSchedulerRegisterComponent t x).Extends s := by
  unfold nosSchedulerRegisterComponent
  split <;> exact extends_of_comps rfl rfl

theorem extends_beginUnload (s : UnloadNode) (idx : ℕ) (info : LoadedCompInfo)
    (reload : Option ReloadData) : (s.beginUnload idx info reload).Extends s := by
  unfold UnloadNode.beginUnload nosSchedulerUnregisterComponent
  split <;> exact extends_of_comps rfl rfl

theorem extends_cliStep (hs : s.cliStep hasStop loads = some s') : s'.Extends s := by
  unfold UnloadNode.cliStep at hs
  split at hs
  case h_6 data _ =>
    split at hs
    · obtain rfl := Option.some.inj hs
      exact extends_of_comps rfl rfl
    · rename_i e
      split at hs
      · obtain rfl := Option.some.inj hs
        obtain ⟨hle, hcomps⟩ :=
          extends_registerComponent (s.loadInstance data e) data.thread s.compCount
        refine ⟨Nat.le_of_succ_le hle, fun y hy => (hcomps y (Nat.lt_succ_of_lt hy)).trans ?_⟩
        exact Function.update_of_ne (Nat.ne_of_lt hy) _ _
      · obtain rfl := Option.some.inj hs
        exact extends_of_comps rfl rfl
  all_goals
    cases hs
    try exact extends_of_comps rfl rfl

theorem extends_step {a : UnloadAction} (hs : s.step a = some s') : s'.Extends s := by
  cases a with
  | send serviceId =>
    obtain rfl := Option.some.inj hs
    unfold UnloadNode.nosServiceMsgSend
    split
    · rename_i entry _
      split
      · exact extends_of_comps rfl rfl
      · cases entry.localThread with
        | none => exact extends_of_comps rfl rfl
        | some t =>
          simp only [Option.elim]
          split <;> exact extends_of_comps rfl rfl
    · exact extends_of_comps rfl rfl
  | worker t =>
    obtain rfl := Option.some.inj hs
    unfold UnloadNode.workerStep
    split
    · split <;> exact extends_of_comps rfl rfl
    all_goals exact extends_of_comps rfl rfl
  | unload name =>
    simp only [UnloadNode.step] at hs
    split at hs
    · obtain ⟨info, -, rfl⟩ := Option.map_eq_some_iff.mp hs
      exact extends_beginUnload s _ info none
    · obtain rfl := Option.some.inj hs
      exact extends_of_comps rfl rfl
    · cases hs
  | reload name =>
    simp only [UnloadNode.step] at hs
    split at hs
    · obtain ⟨info, -, rfl⟩ := Option.map_eq_some_iff.mp hs
      exact extends_beginUnload s _ info _
    · obtain rfl := Option.some.inj hs
      exact extends_of_comps rfl rfl
    · cases hs
  | cliStep hasStop loads => exact extends_cliStep hs

theorem Hosts.step {a : UnloadAction} (h : s.Hosts defs x t) (hs : s.step a = some s') :
    s'.Hosts defs x t := by
  obtain ⟨hle, hcomps⟩ := extends_step hs
  obtain ⟨hlt, hbelongs⟩ := h
  refine ⟨Nat.lt_of_lt_of_le hlt hle, ?_⟩
  rwa [hcomps x hlt]

variable {node : CompNode}

theorem belongs_of_enters (h : node.Enters defs) {d : CompDef × ℕ} (hd : (d, x) ∈ defs.zipIdx) :
    x < node.compCount ∧ Belongs defs (node.comps x) d.2 := by
  have hx := List.mk_mem_zipIdx_iff_getElem?.mp hd
  obtain ⟨hid, hname⟩ := h.comps x d hx
  refine ⟨?_, d, List.mem_of_getElem? hx, hid.symm, hname.symm, rfl⟩
  rw [h.compCount]
  exact (List.getElem?_eq_some_iff.mp hx).1

theorem belongs_of_enters_threads (h : node.Enters defs) (hx : x ∈ (node.threads t).components) :
    x < node.compCount ∧ Belongs defs (node.comps x) t := by
  rw [h.threads t] at hx
  obtain ⟨⟨d, y⟩, hd, rfl⟩ := List.mem_map.mp ((List.take_sublist _ _).subset hx)
  obtain ⟨hd, ht⟩ := List.mem_filter.mp hd
  have hbelongs := belongs_of_enters h hd
  rwa [of_decide_eq_true ht] at hbelongs

theorem EntriesPlaced.setupService {reg : ServiceRegistry ℕ ℕ}
    (h : EntriesPlaced nodeDef defs reg) (henters : node.Enters defs)
    {svc : NosServiceDef} (hsvc : svc ∈ nodeDef.services) :
    EntriesPlaced nodeDef defs (node.setupService reg svc) := by
  unfold CompNode.setupService
  split
  · split
    · rename_i x t _ ht
      refine h.register fun slot _ t' ht' => ?_
      obtain rfl : t = t' := Option.some.inj ht'
      have hany := List.find?_some ht
      obtain ⟨y, hy, hid⟩ := List.any_eq_true.mp hany
      obtain ⟨d, hd, hdid, -, hdt⟩ := (belongs_of_enters_threads henters hy).2
      exact ⟨svc, hsvc, rfl, d, hd, hdid.trans (of_decide_eq_true hid), hdt⟩
    · exact h
  · split
    · refine h.register fun slot hlocal => ?_
      cases hlocal
    · exact h

theorem EntriesPlaced.foldl {reg : ServiceRegistry ℕ ℕ}
    (h : EntriesPlaced nodeDef defs reg) (henters : node.Enters defs)
    (services : List NosServiceDef) (hsub : ∀ svc ∈ services, svc ∈ nodeDef.services) :
    EntriesPlaced nodeDef defs (services.foldl (CompNode.setupService node) reg) := by
  induction services generalizing reg with
  | nil => exact h
  | cons svc services ih =>
    refine ih (h.setupService henters (hsub svc List.mem_cons_self)) fun svc' hsvc' => ?_
    exact hsub svc' (List.mem_cons_of_mem svc hsvc')

theorem placed_startup (nodeDef : NosNodeDef) (loads : ℕ → ℕ → Option CompExport) :
    (startup nodeDef loads).Placed nodeDef (CompNode.entered nodeDef loads) := by
  have henters := CompNode.enters_nodeInitWorkers nodeDef loads
  refine
    { nodeDef_eq := rfl
      instances := fun x hx => ?_
      loaded := fun info hinfo => ?_
      components := fun t x hx => belongs_of_enters_threads henters hx
      entries := ?_
      queues := fun t id hid => absurd hid List.not_mem_nil
      workers := fun _ => trivial
      cli := trivial }
  · have hlt : x < (CompNode.entered nodeDef loads).length := henters.compCount ▸ hx
    exact ⟨_, (belongs_of_enters henters (List.mk_mem_zipIdx_iff_getElem?.mpr
      (List.getElem?_eq_getElem hlt))).2⟩
  · have hmem : info ∈ ((CompNode.zero nodeDef).nodeInitWorkers loads).loaded := hinfo
    rw [henters.loaded] at hmem
    obtain ⟨⟨d, y⟩, hd, rfl⟩ := List.mem_map.mp ((List.take_sublist _ _).subset hmem)
    exact (belongs_of_enters henters hd).2
  · have hzero : EntriesPlaced nodeDef (CompNode.entered nodeDef loads) .zero :=
      fun i hi => absurd hi (Nat.not_lt_zero i)
    exact hzero.foldl henters nodeDef.services fun _ hsvc => hsvc

end UnloadNode

end GeminiNOS

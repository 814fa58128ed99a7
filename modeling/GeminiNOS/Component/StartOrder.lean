import GeminiNOS.Component.Lifecycle

/-! # Messages after the start

A thread dispatches only when it has gone past all its components. An instance that
it was to start has then been started, unless its slot was filled or emptied behind
the loop that starts components.
-/

namespace GeminiNOS

open Foundations

section Registry

variable {registry : ServiceRegistry ℕ ℕ} {serviceId x t n : ℕ}

/-- The providers are among the first `n` instances. -/
def ProvidersBelow (registry : ServiceRegistry ℕ ℕ) (n : ℕ) : Prop :=
  ∀ i x, (registry.slots i).localProvider = some x → x < n

theorem ProvidersBelow.register (h : ProvidersBelow registry n)
    {write : ServiceSlot ℕ ℕ → ServiceSlot ℕ ℕ}
    (hw : ∀ slot x, (write slot).localProvider = some x → slot.localProvider = some x ∨ x < n) :
    ProvidersBelow (registry.register serviceId write).2 n := by
  intro i x hx
  rcases ServiceRegistry.slots_register registry serviceId write i with hwrite | hkeep
  · rcases hw _ x (hwrite ▸ hx) with hold | hlt
    · exact h i x hold
    · exact hlt
  · exact h i x (hkeep ▸ hx)

theorem ProvidersBelow.bind (h : ProvidersBelow registry n) (hx : x < n) :
    ProvidersBelow (registry.nosServiceRegisterProviderBind serviceId (some x) (some t)).2 n :=
  h.register (by rintro _ _ ⟨⟩; exact .inr hx)

theorem ProvidersBelow.remote (h : ProvidersBelow registry n) (nodeName udsPath : Option String) :
    ProvidersBelow (registry.nosServiceRegisterRemoteEx serviceId nodeName udsPath).2 n :=
  h.register fun _ _ hprovider => .inl hprovider

theorem ProvidersBelow.unregister (h : ProvidersBelow registry n) :
    ProvidersBelow (registry.nosServiceUnregisterProvider serviceId).2 n := by
  intro i x hx
  rcases ServiceRegistry.slots_unregister registry serviceId i with he | ⟨j, -, he⟩
  · exact h i x (he ▸ hx)
  · exact h j x (he ▸ hx)

theorem ProvidersBelow.mono (h : ProvidersBelow registry n) {m : ℕ} (hle : n ≤ m) :
    ProvidersBelow registry m :=
  fun i x hx => Nat.lt_of_lt_of_le (h i x hx) hle

end Registry

namespace CompNode

variable {s s' : CompNode} {t x y i : ℕ}

/-- An instance with a start callback has been started, or the loop has failed to or will not, or
it is in a slot that the loop has yet to come to. -/
def Reached (s : CompNode) (x : ℕ) : Prop :=
  (s.comps x).hasStart = true →
    (s.comps x).status = .active ∨ (s.comps x).failed = true ∨ (s.comps x).skipped = true ∨
      ∃ j, (s.threads (s.comps x).thread).components[j]? = some x ∧
        ¬ (s.threads (s.comps x).thread).phase.Passed j

/-- Every instance is accounted for, and every provider is an instance. -/
structure Sound (s : CompNode) : Prop where
  reached : ∀ x < s.compCount, s.Reached x
  started : ∀ x, (s.comps x).status = .active → .start x .ok ∈ s.events
  registry : ProvidersBelow s.registry s.compCount
  loaded : ∀ info ∈ s.loaded, info.comp < s.compCount
  binding : ∀ x t services, s.cli = .bind x t services → x < s.compCount
  onMsg : s.OnMsgAfterStart

theorem Reached.frame (h : s.Reached x) (hcomp : s'.comps x = s.comps x)
    (hslot : ∀ j, (s.threads (s.comps x).thread).components[j]? = some x →
      ¬ (s.threads (s.comps x).thread).phase.Passed j →
      ∃ j', (s'.threads (s.comps x).thread).components[j']? = some x ∧
        ¬ (s'.threads (s.comps x).thread).phase.Passed j') : s'.Reached x := by
  unfold Reached
  rw [hcomp]
  intro hstart
  refine (h hstart).imp_right (Or.imp_right (Or.imp_right ?_))
  rintro ⟨j, hj, hpassed⟩
  exact hslot j hj hpassed

theorem OnMsgAfterStart.append (h : s.OnMsgAfterStart) {event : LifecycleEvent}
    (hevents : s'.events = s.events ++ [event])
    (hlast : ∀ x status, event = .onMsg x true status →
      status = .active ∧ .start x .ok ∈ s.events) : s'.OnMsgAfterStart := by
  intro before x status after heq
  rw [hevents] at heq
  rcases List.eq_nil_or_concat after with rfl | ⟨rest, last, rfl⟩
  · obtain ⟨rfl, hevent⟩ := List.append_inj' heq rfl
    exact hlast x status (List.singleton_inj.mp hevent)
  · rw [List.concat_eq_append, ← List.cons_append, ← List.append_assoc] at heq
    exact h before x status rest (List.append_inj' heq rfl).1

section Threads

variable {thread : CompThread}

theorem Reached.setThread (h : s.Reached x)
    (hslot : ∀ j, (s.threads t).components[j]? = some x → ¬ (s.threads t).phase.Passed j →
      ∃ j', thread.components[j']? = some x ∧ ¬ thread.phase.Passed j') :
    (s.setThread t thread).Reached x := by
  refine h.frame rfl fun j hj hpassed => ?_
  simp only [CompNode.setThread, Function.update_apply]
  split
  · rename_i heq
    rw [heq] at hj hpassed
    exact hslot j hj hpassed
  · exact ⟨j, hj, hpassed⟩

theorem Sound.setThread (h : s.Sound)
    (hslot : ∀ x j, (s.threads t).components[j]? = some x → ¬ (s.threads t).phase.Passed j →
      ∃ j', thread.components[j']? = some x ∧ ¬ thread.phase.Passed j') :
    (s.setThread t thread).Sound :=
  { h with reached := fun x hx => (h.reached x hx).setThread (hslot x) }

theorem Sound.setThread_skip (h : s.Sound)
    (hslot : ∀ x, x ≠ y → ∀ j, (s.threads t).components[j]? = some x →
      ¬ (s.threads t).phase.Passed j →
        ∃ j', thread.components[j']? = some x ∧ ¬ thread.phase.Passed j') :
    ((s.setThread t thread).skip y).Sound where
  reached x hx := by
    rcases eq_or_ne x y with rfl | hne
    · intro _
      exact Or.inr (Or.inr (Or.inl (by simp [skip, setComp])))
    · have hreached := (h.reached x hx).setThread (hslot x hne)
      apply hreached.frame (by simp [skip, setComp, CompNode.setThread, hne])
      exact fun j hj hpassed => ⟨j, hj, hpassed⟩
  started x hx := by
    apply h.started x
    rcases eq_or_ne x y with rfl | hne
    · simpa [skip, setComp, CompNode.setThread] using hx
    · simpa [skip, setComp, CompNode.setThread, hne] using hx
  registry := h.registry
  loaded := h.loaded
  binding := h.binding
  onMsg := h.onMsg

/-- A component that is not the one removed, nor the last one that moves behind the loop, keeps a
slot that the loop has yet to come to. -/
theorem exists_slot_swapRemove {components : List ℕ} {phase : RunPhase} {j : ℕ}
    (hj : components[j]? = some x) (hpassed : ¬ phase.Passed j) (hne : j ≠ i)
    (hi : i < components.length)
    (hlast : j + 1 = components.length → ¬ phase.Passed i) :
    ∃ j', (swapRemove components i)[j']? = some x ∧ ¬ phase.Passed j' := by
  have hlt := (List.getElem?_eq_some_iff.mp hj).1
  rcases Nat.lt_or_ge (j + 1) components.length with hbefore | hafter
  · exact ⟨j, (getElem?_swapRemove_of_ne hbefore hne).trans hj, hpassed⟩
  · refine ⟨i, ?_, hlast (by omega)⟩
    rw [getElem?_swapRemove_self (by omega), List.getLast?_eq_getElem?,
      show components.length - 1 = j by omega, hj]

theorem Sound.unregisterComponent (h : s.Sound) (t x : ℕ) :
    (s.nosSchedulerUnregisterComponent t x).Sound := by
  unfold nosSchedulerUnregisterComponent
  dsimp only
  split
  · exact h
  · rename_i i hfind
    obtain ⟨hi, hx, -⟩ := List.findIdx?_eq_some_iff_getElem.mp hfind
    have hx : (s.threads t).components[i]? = some x := by
      rw [List.getElem?_eq_getElem hi]
      simpa using hx
    split
    · rename_i hi'
      have hmoves : ∀ y j, (s.threads t).components[j]? = some y →
          ¬ (s.threads t).phase.Passed j → (j + 1 = (s.threads t).components.length →
            ¬ (s.threads t).phase.Passed i) →
          ∃ j', (swapRemove (s.threads t).components i)[j']? = some y ∧
            ¬ (s.threads t).phase.Passed j' := by
        intro y j hj hpassed hlast
        have hne : j ≠ i := by
          rintro rfl
          exact hpassed hi'
        exact exists_slot_swapRemove hj hpassed hne hi hlast
      split
      · rename_i last hlast
        split
        · rename_i hpast
          apply h.setThread
          intro y j hj hpassed
          refine hmoves y j hj hpassed fun hend => absurd hpast ?_
          rwa [show (s.threads t).components.length - 1 = j by omega]
        · apply h.setThread_skip
          intro y hne j hj hpassed
          refine hmoves y j hj hpassed fun hend => absurd ?_ hne
          rw [List.getLast?_eq_getElem?,
            show (s.threads t).components.length - 1 = j by omega, hj] at hlast
          exact Option.some.inj hlast
      · rename_i hlast
        rw [List.getLast?_eq_none_iff.mp hlast] at hi
        cases hi
    · rename_i hi'
      apply h.setThread_skip
      intro y hne j hj hpassed
      apply exists_slot_swapRemove hj hpassed _ hi fun _ => hi'
      rintro rfl
      exact hne (Option.some.inj (hj.symm.trans hx))

end Threads

theorem Reached.setComp (h : s.Reached x) (hne : x ≠ y) (comp : NosComponent) :
    (s.setComp y comp).Reached x :=
  h.frame (by simp [CompNode.setComp, hne]) fun j hj hpassed => ⟨j, hj, hpassed⟩

theorem Sound.newComponent (h : s.Sound) (id : ℕ) (name : String) (e : CompExport) :
    (s.newComponent id name e).Sound where
  reached x hx := by
    rcases eq_or_ne x s.compCount with rfl | hne
    · intro _
      exact Or.inr (Or.inr (Or.inl (by simp [CompNode.newComponent])))
    · have hlt : x < s.compCount := Nat.lt_of_le_of_ne (Nat.lt_succ_iff.mp hx) hne
      exact (h.reached x hlt).frame (by simp [CompNode.newComponent, hne])
        fun j hj hpassed => ⟨j, hj, hpassed⟩
  started x hx := by
    simp only [CompNode.newComponent, Function.update_apply] at hx
    split at hx
    · cases hx
    · exact h.started x hx
  registry := h.registry.mono (Nat.le_succ _)
  loaded info hinfo := Nat.lt_succ_of_lt (h.loaded info hinfo)
  binding x t services hcli := Nat.lt_succ_of_lt (h.binding x t services hcli)
  onMsg := h.onMsg

theorem Sound.addLoaded (h : s.Sound) (info : LoadedCompInfo) (hinfo : info.comp < s.compCount) :
    (s.addLoaded info).Sound :=
  { h with
    loaded := by
      intro info' hmem
      rcases List.mem_append.mp hmem with hmem | hmem
      · exact h.loaded info' hmem
      · obtain rfl := List.mem_singleton.mp hmem
        exact hinfo }

theorem Sound.registerComponent (h : s.Sound) (t x : ℕ) :
    (s.nosSchedulerRegisterComponent t x).Sound := by
  unfold nosSchedulerRegisterComponent
  dsimp only
  split
  · exact h
  · have hthread : (s.setThread t { s.threads t with
        components := (s.threads t).components ++ [x] }).Sound := by
      apply h.setThread
      intro y j hj hpassed
      refine ⟨j, ?_, hpassed⟩
      rw [List.getElem?_append_left (List.getElem?_eq_some_iff.mp hj).1, hj]
    refine { hthread with reached := fun y hy => ?_, started := fun y hy => h.started y ?_ }
    · rcases eq_or_ne y x with rfl | hne
      · intro _
        by_cases hpassed : (s.threads t).phase.Passed (s.threads t).components.length
        · exact Or.inr (Or.inr (Or.inl (by simp [CompNode.setComp, hpassed])))
        · refine Or.inr (Or.inr (Or.inr ⟨(s.threads t).components.length, ?_, ?_⟩))
          · simp [CompNode.setComp, CompNode.setThread]
          · simpa [CompNode.setComp, CompNode.setThread] using hpassed
      · exact (hthread.reached y hy).setComp hne _
    · simp only [CompNode.setComp, CompNode.setThread, Function.update_apply] at hy
      split at hy
      · exact ‹y = x› ▸ hy
      · exact hy

theorem compCount_registerComponent (s : CompNode) (t x : ℕ) :
    (s.nosSchedulerRegisterComponent t x).compCount = s.compCount := by
  unfold nosSchedulerRegisterComponent
  dsimp only
  split <;> rfl

theorem Sound.foldl {α : Type} {f : CompNode → α → CompNode}
    (hf : ∀ s a, s.Sound → (f s a).Sound) (as : List α) (h : s.Sound) : (as.foldl f s).Sound := by
  induction as generalizing s with
  | nil => exact h
  | cons a as ih => exact ih (hf s a h)

theorem Sound.initComponent (h : s.Sound) (t : ℕ) (c : CompDef) (loads : Option CompExport) :
    (s.initComponent t c loads).Sound := by
  cases loads with
  | none => exact h
  | some e =>
    have hnew := h.newComponent c.id c.name e
    simp only [CompNode.initComponent]
    split
    · exact (hnew.addLoaded _ (Nat.lt_succ_self _)).registerComponent t _
    · exact hnew.registerComponent t _

theorem Sound.nodeInitWorkers (h : s.Sound) (loads : ℕ → ℕ → Option CompExport) :
    (s.nodeInitWorkers loads).Sound := by
  refine Sound.foldl (fun s td h => ?_) _ h
  have hcomps := Sound.foldl
    (fun s c h => h.initComponent td.2 c.1 (loads td.2 c.2))
    ((td.1.takeWhile (·.id ≠ 0)).take maxComponentsPerNode).zipIdx h
  exact { hcomps with }

theorem Sound.setupService (h : s.Sound) {registry : ServiceRegistry ℕ ℕ}
    (hreg : ProvidersBelow registry s.compCount) (svc : NosServiceDef) :
    ProvidersBelow (s.setupService registry svc) s.compCount := by
  unfold CompNode.setupService
  split
  · split
    · rename_i x t hx _
      obtain ⟨info, hfind, rfl⟩ := Option.map_eq_some_iff.mp hx
      exact hreg.bind (h.loaded info (List.mem_of_find?_eq_some hfind))
    · exact hreg
  · split
    · exact hreg.remote _ _
    · exact hreg

theorem Sound.nodeSetupRouting (h : s.Sound) : s.nodeSetupRouting.Sound := by
  suffices hfold : ∀ (services : List NosServiceDef) {registry : ServiceRegistry ℕ ℕ},
      ProvidersBelow registry s.compCount →
      ProvidersBelow (services.foldl s.setupService registry) s.compCount from
    { h with registry := hfold s.nodeDef.services h.registry }
  intro services
  induction services with
  | nil => exact id
  | cons svc services ih => exact fun hreg => ih (h.setupService hreg svc)

theorem sound_zero (nodeDef : NosNodeDef) : (zero nodeDef).Sound := by
  constructor
  · intro x hx
    cases hx
  · intro x hx
    cases hx
  · rintro i x ⟨⟩
  · intro info hinfo
    cases hinfo
  · intro x t services hcli
    cases hcli
  · intro before x status after heq
    have hlen := congrArg List.length heq
    simp [zero] at hlen

theorem sound_startup (nodeDef : NosNodeDef) (loads : ℕ → ℕ → Option CompExport) :
    (startup nodeDef loads).Sound :=
  ((sound_zero nodeDef).nodeInitWorkers loads).nodeSetupRouting

theorem Sound.setQueue (h : s.Sound) (t : ℕ) (queue : List ℕ) :
    (s.setThread t { s.threads t with msgQueue := queue }).Sound :=
  h.setThread fun _ j hj hpassed => ⟨j, hj, hpassed⟩

theorem Sound.nosServiceMsgSend (h : s.Sound) (serviceId : ℕ) :
    (s.nosServiceMsgSend serviceId).Sound := by
  unfold CompNode.nosServiceMsgSend
  split
  · dsimp only
    split
    · exact h.setQueue _ _
    · exact h
  · exact h

theorem Sound.startTurn (h : s.Sound) (hphase : (s.threads t).phase = .starting i)
    (ret : NosStatus) : (s.startTurn t i ret).Sound := by
  unfold CompNode.startTurn
  dsimp only
  split
  · rename_i hnone
    apply h.setThread
    intro y j hj hpassed
    have hlt := (List.getElem?_eq_some_iff.mp hj).1
    have hle := List.getElem?_eq_none_iff.mp hnone
    rw [hphase] at hpassed
    exact absurd (Nat.lt_of_lt_of_le hlt hle) hpassed
  · rename_i x hx
    have hothers : ∀ y, y ≠ x → ∀ j, (s.threads t).components[j]? = some y →
        ¬ (s.threads t).phase.Passed j →
          ∃ j', (s.threads t).components[j']? = some y ∧
            ¬ (RunPhase.starting (i + 1)).Passed j' := by
      intro y hne j hj hpassed
      rw [hphase] at hpassed
      refine ⟨j, hj, fun hlt => ?_⟩
      obtain rfl : j = i := Nat.le_antisymm (Nat.lt_succ_iff.mp hlt) (Nat.not_lt.mp hpassed)
      exact hne (Option.some.inj (hj.symm.trans hx))
    split
    · rename_i hstart
      constructor
      · intro y hy
        rcases eq_or_ne y x with rfl | hne
        · intro _
          by_cases hret : ret = .ok
          · exact Or.inl (by simp [CompNode.setComp, hret])
          · exact Or.inr (Or.inl (by simp [CompNode.setComp, hret]))
        · exact ((h.reached y hy).setThread (hothers y hne)).setComp hne _
      · intro y hy
        by_cases hnew : y = x ∧ ret = .ok
        · obtain ⟨rfl, rfl⟩ := hnew
          exact List.mem_append_right _ (List.mem_singleton_self _)
        · apply List.mem_append_left
          apply h.started y
          simp only [CompNode.setComp, CompNode.setThread, Function.update_apply] at hy
          split at hy
          · subst y
            rwa [if_neg fun hret => hnew ⟨rfl, hret⟩] at hy
          · exact hy
      · exact h.registry
      · exact h.loaded
      · exact h.binding
      · exact h.onMsg.append rfl (by rintro y status ⟨⟩)
    · rename_i hstart
      refine { h with reached := fun y hy => ?_ }
      rcases eq_or_ne y x with rfl | hne
      · intro hs
        exact Or.inl (by_contra fun hactive => hstart ⟨hs, hactive⟩)
      · exact (h.reached y hy).setThread (hothers y hne)

theorem Sound.processThreadMessage (h : s.Sound) (hphase : (s.threads t).phase = .looping)
    (hsafe : s.ProviderStarts (.dispatch t)) : (s.processThreadMessage t).Sound := by
  have hqueue := h.setQueue t (s.threads t).msgQueue.tail
  unfold CompNode.processThreadMessage
  dsimp only
  split
  · rename_i x hx
    split
    · refine { hqueue with
        started := fun y hy => List.mem_append_left _ (h.started y hy)
        onMsg := ?_ }
      refine h.onMsg.append rfl fun y status hevent => ?_
      obtain ⟨rfl, hstart, rfl⟩ := LifecycleEvent.onMsg.inj hevent
      obtain ⟨hthread, hskipped, hfailed⟩ := hsafe x hx hstart
      have hlt : x < s.compCount := by
        obtain ⟨serviceId, -, hentry⟩ := Option.bind_eq_some_iff.mp hx
        obtain ⟨entry, hfind, hprovider⟩ := Option.bind_eq_some_iff.mp hentry
        obtain ⟨i, -, rfl⟩ := Option.map_eq_some_iff.mp hfind
        exact h.registry i x hprovider
      rcases h.reached x hlt hstart with hactive | hfail | hskip | ⟨j, -, hpassed⟩
      · exact ⟨hactive, h.started x hactive⟩
      · rw [hfailed] at hfail
        cases hfail
      · rw [hskipped] at hskip
        cases hskip
      · rw [hthread, hphase] at hpassed
        exact absurd trivial hpassed
    · exact hqueue
  · exact hqueue

theorem Sound.cliStep (h : s.Sound) {loads : Option CompExport}
    (hstep : s.cliStep loads = some s') : s'.Sound := by
  unfold CompNode.cliStep at hstep
  split at hstep
  · cases hstep
  · obtain rfl := Option.some.inj hstep
    exact { h with registry := h.registry.unregister, binding := by rintro x t services ⟨⟩ }
  · obtain rfl := Option.some.inj hstep
    refine { h with
      loaded := fun info hinfo => h.loaded info (List.mem_of_mem_eraseIdx hinfo)
      binding := ?_ }
    rintro x t services hcli
    dsimp only at hcli
    split at hcli <;> cases hcli
  · rename_i data hcli
    cases loads with
    | none =>
      obtain rfl := Option.some.inj hstep
      exact { h with binding := by rintro x t services ⟨⟩ }
    | some e =>
      dsimp only at hstep
      split at hstep
      · obtain rfl := Option.some.inj hstep
        have hnew := h.newComponent data.id data.name e
        have hloaded := hnew.addLoaded ⟨s.compCount, data.libName, data.thread⟩
          (Nat.lt_succ_self _)
        refine { hloaded.registerComponent data.thread s.compCount with binding := ?_ }
        rintro _ _ _ ⟨⟩
        rw [compCount_registerComponent]
        exact Nat.lt_succ_self _
      · obtain rfl := Option.some.inj hstep
        exact { h with binding := by rintro x t services ⟨⟩ }
  · obtain rfl := Option.some.inj hstep
    exact { h with binding := by rintro x t services ⟨⟩ }
  · rename_i x t serviceId services hcli
    obtain rfl := Option.some.inj hstep
    have hlt := h.binding x t _ hcli
    refine { h with registry := h.registry.bind hlt, binding := ?_ }
    rintro _ _ _ ⟨⟩
    exact hlt

theorem Sound.beginUnload (h : s.Sound) (idx : ℕ) (info : LoadedCompInfo)
    (reload : Option ReloadData) : (s.beginUnload idx info reload).Sound :=
  { h.unregisterComponent info.ownerThread info.comp with binding := by rintro x t services ⟨⟩ }

theorem Sound.step (h : s.Sound) {a : CompAction} (hsafe : s.ProviderStarts a)
    (hstep : s.step a = some s') : s'.Sound := by
  cases a with
  | beginLoop t =>
    obtain ⟨⟨-, hphase⟩, hstep⟩ := Option.ite_none_right_eq_some.mp hstep
    obtain rfl := Option.some.inj hstep
    exact h.setThread fun y j hj _ => ⟨j, hj, Nat.not_lt_zero j⟩
  | startNext t ret =>
    simp only [CompNode.step] at hstep
    split at hstep
    · obtain rfl := Option.some.inj hstep
      exact h.startTurn ‹_› ret
    · cases hstep
  | dispatch t =>
    obtain ⟨⟨hphase, -⟩, hstep⟩ := Option.ite_none_right_eq_some.mp hstep
    obtain rfl := Option.some.inj hstep
    exact h.processThreadMessage hphase hsafe
  | send serviceId =>
    obtain rfl := Option.some.inj hstep
    exact h.nosServiceMsgSend serviceId
  | unload name =>
    simp only [CompNode.step] at hstep
    split at hstep
    · obtain ⟨info, -, rfl⟩ := Option.map_eq_some_iff.mp hstep
      exact h.beginUnload _ info _
    · obtain rfl := Option.some.inj hstep
      exact h
    · cases hstep
  | reload name =>
    simp only [CompNode.step] at hstep
    split at hstep
    · obtain ⟨info, -, rfl⟩ := Option.map_eq_some_iff.mp hstep
      exact h.beginUnload _ info _
    · obtain rfl := Option.some.inj hstep
      exact h
    · cases hstep
  | cliStep loads => exact h.cliStep hstep

/-- In a run in which no message is dispatched to an instance that the loop of its thread has missed
or has failed to start, every component gets its messages after its start. -/
theorem always_onMsgAfterStart (nodeDef : NosNodeDef) (loads : ℕ → ℕ → Option CompExport)
    (actions : List CompAction)
    (hsafe : Run.Guarded step ProviderStarts (startup nodeDef loads) actions) :
    Run.Always step OnMsgAfterStart (startup nodeDef loads) actions :=
  Run.always_of_guarded (fun _ _ _ h hsafe hstep => h.step hsafe hstep) (fun _ h => h.onMsg)
    (sound_startup nodeDef loads) hsafe

/-- A node with one thread and one component, which provides service 7. -/
def pongNode : NosNodeDef where
  name := "NodeB"
  threads := [[⟨5, "pong", "libcomp-pong.so"⟩]]
  services := [⟨7, "NodeB", 5, none⟩]

/-- The component gets a message that has come in before its start. -/
theorem onMsgAfterStart_pongNode :
    Run.Always step OnMsgAfterStart (startup pongNode fun _ _ => some ⟨true, true⟩)
      [.send 7, .beginLoop 0, .startNext 0 .ok, .startNext 0 .ok, .dispatch 0] := by
  apply always_onMsgAfterStart
  refine Run.Guarded.cons rfl trivial (Run.Guarded.cons rfl trivial
    (Run.Guarded.cons rfl trivial (Run.Guarded.cons rfl trivial (Run.Guarded.cons rfl ?_ trivial))))
  rintro x ⟨⟩ -
  decide

/-- The component is reloaded, and its new instance gets a message without a start. -/
theorem not_onMsgAfterStart_reload :
    ∃ s, Run.exec step (startup pongNode fun _ _ => some ⟨true, true⟩)
        [.beginLoop 0, .startNext 0 .ok, .startNext 0 .ok, .reload "pong", .cliStep none,
          .cliStep none, .cliStep (some ⟨true, true⟩), .cliStep none, .cliStep none, .send 7,
          .dispatch 0] = some s ∧
      s.events = [.start 0 .ok, .onMsg 1 true .inited] ∧ ¬ s.OnMsgAfterStart := by
  apply Run.exists_exec events [.start 0 .ok, .onMsg 1 true .inited] (by decide)
  intro s hevents
  refine ⟨hevents, fun h => ?_⟩
  have hstatus := (h [.start 0 .ok] 1 .inited [] hevents).1
  cases hstatus

end CompNode

end GeminiNOS

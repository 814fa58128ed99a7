import GeminiNOS.Service.Registry

/-! # Dispatch by binding

What a sequence of registrations means is a map from services to their bindings. The
registry is this map, but for the provider that an entry keeps when its service
becomes remote, or inherits from a removed entry. A dispatch that looks only at the
provider takes it for a binding.
-/

namespace GeminiNOS

open Foundations

/-- What a service is bound to: a provider with its thread, or a remote node. -/
inductive ServiceBinding (C T : Type*) where
  | toProvider (provider : Option C) (thread : Option T)
  | toRemote
  deriving DecidableEq

/-- A message that has been handed to a component, with the binding of its service then. -/
structure Handed (C T : Type*) where
  serviceId : ℕ
  provider : C
  binding : Option (ServiceBinding C T)

/-- The registry and the queues of the threads, with the bindings that the calls so far have made
and the messages handed out. A message is the service that it is addressed to. -/
structure ServiceNode (C T : Type*) where
  registry : ServiceRegistry C T
  msgQueue : T → List ℕ
  bound : ℕ → Option (ServiceBinding C T)
  handed : List (Handed C T)

/-- A registration, a removal, a send, or a turn of `process_thread_messages` in a thread. -/
inductive ServiceAction (C T : Type*) where
  | registerProviderBind (serviceId : ℕ) (provider : Option C) (thread : Option T)
  | registerRemoteEx (serviceId : ℕ) (nodeName udsPath : Option String)
  | unregisterProvider (serviceId : ℕ)
  | send (serviceId : ℕ)
  | drain (thread : T)

def ServiceSlot.binding {C T : Type*} (slot : ServiceSlot C T) : ServiceBinding C T :=
  if slot.isRemote then .toRemote else .toProvider slot.localProvider slot.localThread

namespace ServiceNode

variable {C T : Type*}

def init : ServiceNode C T where
  registry := .zero
  msgQueue _ := []
  bound _ := none
  handed := []

/-- The end of a call on the registry: the binding counts if the call has succeeded. -/
def update (s : ServiceNode C T) (serviceId : ℕ) (binding : Option (ServiceBinding C T))
    (r : NosStatus × ServiceRegistry C T) : ServiceNode C T :=
  { s with
    registry := r.2
    bound := if r.1 = .ok then Function.update s.bound serviceId binding else s.bound }

section Steps

variable [DecidableEq T]

/-- `nos_transport_local_send` -/
def nosTransportLocalSend (s : ServiceNode C T) (serviceId : ℕ) : Option T → ServiceNode C T
  | none => s
  | some t =>
    if (s.msgQueue t).length + 1 < maxQueueSize then
      { s with msgQueue := Function.update s.msgQueue t (s.msgQueue t ++ [serviceId]) }
    else s

/-- `nos_service_msg_send`. What goes to a remote node does not come back here. -/
def nosServiceMsgSend (s : ServiceNode C T) (serviceId : ℕ) : ServiceNode C T :=
  match s.registry.findServiceEntry serviceId with
  | some entry => if entry.isRemote then s else s.nosTransportLocalSend serviceId entry.localThread
  | none => s

/-- The provider that a turn of `process_thread_messages` calls for a message. -/
def callee (s : ServiceNode C T) (hasOnMsg : C → Bool) (serviceId : ℕ) : Option C :=
  ((s.registry.findServiceEntry serviceId).bind ServiceSlot.localProvider).filter hasOnMsg

/-- The call of `on_msg`. -/
def hand (s : ServiceNode C T) (serviceId : ℕ) : Option C → ServiceNode C T
  | none => s
  | some provider => { s with handed := s.handed ++ [⟨serviceId, provider, s.bound serviceId⟩] }

/-- A turn of `process_thread_messages`. -/
def processThreadMessage (s : ServiceNode C T) (hasOnMsg : C → Bool) (t : T) : ServiceNode C T :=
  match s.msgQueue t with
  | [] => s
  | serviceId :: rest =>
    { s with msgQueue := Function.update s.msgQueue t rest }.hand serviceId
      (s.callee hasOnMsg serviceId)

/-- One step, for components of which some have an `on_msg`. -/
def step (hasOnMsg : C → Bool) (s : ServiceNode C T) : ServiceAction C T → Option (ServiceNode C T)
  | .registerProviderBind serviceId provider thread =>
    some (s.update serviceId (some (.toProvider provider thread))
      (s.registry.nosServiceRegisterProviderBind serviceId provider thread))
  | .registerRemoteEx serviceId nodeName udsPath =>
    some (s.update serviceId (some .toRemote)
      (s.registry.nosServiceRegisterRemoteEx serviceId nodeName udsPath))
  | .unregisterProvider serviceId =>
    some (s.update serviceId none (s.registry.nosServiceUnregisterProvider serviceId))
  | .send serviceId => some (s.nosServiceMsgSend serviceId)
  | .drain t => some (s.processThreadMessage hasOnMsg t)

end Steps

/-- The component was bound as the provider of the service when it got the message. -/
def Handed.Bound (h : Handed C T) : Prop :=
  ∃ thread, h.binding = some (.toProvider (some h.provider) thread)

/-- The law of the registry. Services have one entry each, a removal leaves all other entries as
they are, and messages are handed to the providers that their services are bound to. -/
structure Lawful (s : ServiceNode C T) : Prop where
  distinct : s.registry.Distinct
  others : ∀ serviceId id, id ≠ serviceId →
    (s.registry.nosServiceUnregisterProvider serviceId).2.findServiceEntry id =
      s.registry.findServiceEntry id
  handed : ∀ h ∈ s.handed, Handed.Bound h

/-- The condition on a turn of `process_thread_messages`. Unless it calls no `on_msg`, the entry of
the message is not that of a remote service. -/
def EntryLocal (hasOnMsg : C → Bool) (s : ServiceNode C T) : ServiceAction C T → Prop
  | .drain t => ∀ serviceId ∈ (s.msgQueue t).head?, ∀ entry,
    s.registry.findServiceEntry serviceId = some entry → entry.isRemote = true →
      entry.localProvider.filter hasOnMsg = none
  | _ => True

variable {hasOnMsg : C → Bool} {s s' : ServiceNode C T} {action : ServiceAction C T}
  {serviceId : ℕ} {t : T}

/-- The registry is the map of the bindings. -/
structure Refines (s : ServiceNode C T) : Prop where
  distinct : s.registry.Distinct
  bound : ∀ id, s.bound id = (s.registry.findServiceEntry id).map ServiceSlot.binding

/-- The registry is the map of the bindings, and the law has held so far. -/
structure Inv (s : ServiceNode C T) : Prop where
  refines : s.Refines
  handed : ∀ h ∈ s.handed, Handed.Bound h

theorem Inv.lawful (h : s.Inv) : s.Lawful where
  distinct := h.refines.distinct
  others := fun _ _ hne => ServiceRegistry.findServiceEntry_unregister h.refines.distinct hne
  handed := h.handed

theorem Refines.congr (h : s.Refines) (hreg : s'.registry = s.registry)
    (hbound : s'.bound = s.bound) : s'.Refines := by
  refine ⟨hreg ▸ h.distinct, fun id => ?_⟩
  rw [hreg, hbound]
  exact h.bound id

theorem Refines.register (h : s.Refines) {write : ServiceSlot C T → ServiceSlot C T}
    {binding : ServiceBinding C T} (hid : ∀ slot, (write slot).serviceId = serviceId)
    (hbinding : ∀ slot, (write slot).binding = binding) :
    (s.update serviceId (some binding) (s.registry.register serviceId write)).Refines := by
  rcases ServiceRegistry.register_cases h.distinct hid with he | ⟨hok, hdistinct, slot, -, hfind⟩
  · rw [he]
    exact h
  · refine ⟨hdistinct, fun id => ?_⟩
    simp only [update, hok, if_true, hfind, Function.update_apply]
    split
    · rw [Option.map_some, hbinding]
    · exact h.bound id

theorem Refines.unregister (h : s.Refines) : (s.update serviceId none
    (s.registry.nosServiceUnregisterProvider serviceId)).Refines := by
  rcases ServiceRegistry.unregister_cases h.distinct serviceId with
    ⟨-, he⟩ | ⟨hok, hdistinct, hfind⟩
  · rw [he]
    exact h
  · refine ⟨hdistinct, fun id => ?_⟩
    simp only [update, hok, if_true, hfind, Function.update_apply]
    split
    · rfl
    · exact h.bound id

/-- A provider that is called for a message is the one that the service is bound to, exactly if the
entry is not that of a remote service. -/
theorem Refines.callee_bound (h : s.Refines) {provider : C}
    (hc : s.callee hasOnMsg serviceId = some provider) :
    Handed.Bound ⟨serviceId, provider, s.bound serviceId⟩ ↔
      ∀ entry, s.registry.findServiceEntry serviceId = some entry → entry.isRemote = false := by
  obtain ⟨hprovider, -⟩ := Option.filter_eq_some_iff.mp hc
  obtain ⟨entry, hentry, hlocal⟩ := Option.bind_eq_some_iff.mp hprovider
  rw [Handed.Bound, h.bound, hentry, Option.map_some, ServiceSlot.binding]
  constructor
  · rintro ⟨thread, hbinding⟩ entry' hentry'
    obtain rfl := Option.some.inj hentry'
    cases hremote : entry.isRemote with
    | false => rfl
    | true =>
      rw [hremote] at hbinding
      cases hbinding
  · intro hremote
    rw [hremote entry rfl, hlocal]
    exact ⟨_, rfl⟩

variable [DecidableEq T]

theorem registry_nosServiceMsgSend : (s.nosServiceMsgSend serviceId).registry = s.registry ∧
    (s.nosServiceMsgSend serviceId).bound = s.bound ∧
    (s.nosServiceMsgSend serviceId).handed = s.handed := by
  unfold nosServiceMsgSend
  split
  · split
    · exact ⟨rfl, rfl, rfl⟩
    · unfold nosTransportLocalSend
      split
      · exact ⟨rfl, rfl, rfl⟩
      · split <;> exact ⟨rfl, rfl, rfl⟩
  · exact ⟨rfl, rfl, rfl⟩

theorem registry_processThreadMessage :
    (s.processThreadMessage hasOnMsg t).registry = s.registry ∧
    (s.processThreadMessage hasOnMsg t).bound = s.bound := by
  unfold processThreadMessage
  split
  · exact ⟨rfl, rfl⟩
  · unfold hand
    split <;> exact ⟨rfl, rfl⟩

theorem handed_processThreadMessage :
    (s.processThreadMessage hasOnMsg t).handed = s.handed ++
      (((s.msgQueue t).head?.bind fun serviceId =>
        (s.callee hasOnMsg serviceId).map fun provider =>
          (⟨serviceId, provider, s.bound serviceId⟩ : Handed C T))).toList := by
  unfold processThreadMessage
  split <;> rename_i hq
  · simp [hq]
  · rw [hq, List.head?_cons, Option.bind_some]
    unfold hand
    split <;> rename_i hc <;> simp [hc]

theorem Refines.step (h : s.Refines) (hs : step hasOnMsg s action = some s') : s'.Refines := by
  cases action with
  | registerProviderBind serviceId provider thread =>
    obtain rfl := Option.some.inj hs
    exact h.register (fun _ => rfl) fun _ => rfl
  | registerRemoteEx serviceId nodeName udsPath =>
    obtain rfl := Option.some.inj hs
    exact h.register (fun _ => rfl) fun _ => rfl
  | unregisterProvider serviceId =>
    obtain rfl := Option.some.inj hs
    exact h.unregister
  | send serviceId =>
    obtain rfl := Option.some.inj hs
    exact h.congr registry_nosServiceMsgSend.1 registry_nosServiceMsgSend.2.1
  | drain t =>
    obtain rfl := Option.some.inj hs
    exact h.congr registry_processThreadMessage.1 registry_processThreadMessage.2

/-- The law holds after a turn exactly if its entry is not that of a remote service. -/
theorem Inv.handed_drain_iff (h : s.Inv) :
    (∀ x ∈ (s.processThreadMessage hasOnMsg t).handed, Handed.Bound x) ↔
      EntryLocal hasOnMsg s (.drain t) := by
  have hrest : (∀ x ∈ (s.processThreadMessage hasOnMsg t).handed, Handed.Bound x) ↔
      ∀ serviceId ∈ (s.msgQueue t).head?, ∀ provider,
        s.callee hasOnMsg serviceId = some provider →
          Handed.Bound ⟨serviceId, provider, s.bound serviceId⟩ := by
    rw [handed_processThreadMessage]
    constructor
    · intro hall serviceId hhead provider hc
      refine hall _ (List.mem_append_right _ ?_)
      rw [Option.mem_toList]
      exact Option.mem_bind_iff.mpr ⟨serviceId, hhead, Option.mem_map_of_mem _ hc⟩
    · intro hall x hx
      rcases List.mem_append.mp hx with hx | hx
      · exact h.handed x hx
      · rw [Option.mem_toList] at hx
        obtain ⟨serviceId, hhead, hx⟩ := Option.mem_bind_iff.mp hx
        obtain ⟨provider, hc, rfl⟩ := Option.mem_map.mp hx
        exact hall serviceId hhead provider hc
  rw [hrest]
  constructor
  · intro hall serviceId hhead entry hentry hremote
    by_contra hsome
    obtain ⟨provider, hprovider⟩ := Option.ne_none_iff_exists'.mp hsome
    have hc : s.callee hasOnMsg serviceId = some provider := by
      rw [callee, hentry, Option.bind_some, hprovider]
    have hlocal := (h.refines.callee_bound hc).mp (hall serviceId hhead provider hc) entry hentry
    rw [hlocal] at hremote
    cases hremote
  · intro hentry serviceId hhead provider hc
    refine (h.refines.callee_bound hc).mpr fun entry he => ?_
    cases hremote : entry.isRemote with
    | false => rfl
    | true =>
      have hnone := hentry serviceId hhead entry he hremote
      rw [callee, he, Option.bind_some, hnone] at hc
      cases hc

theorem Inv.of_handed (h : s.Inv) (hs : step hasOnMsg s action = some s')
    (hhanded : ∀ x ∈ s'.handed, Handed.Bound x) : s'.Inv :=
  ⟨h.refines.step hs, hhanded⟩

theorem Inv.lawful_iff (h : s.Inv) (hs : step hasOnMsg s action = some s') :
    s'.Lawful ↔ EntryLocal hasOnMsg s action := by
  have hlaw : s'.Lawful ↔ ∀ x ∈ s'.handed, Handed.Bound x :=
    ⟨fun h' => h'.handed, fun hhanded => (h.of_handed hs hhanded).lawful⟩
  rw [hlaw]
  cases action with
  | registerProviderBind serviceId provider thread =>
    obtain rfl := Option.some.inj hs
    exact iff_of_true h.handed trivial
  | registerRemoteEx serviceId nodeName udsPath =>
    obtain rfl := Option.some.inj hs
    exact iff_of_true h.handed trivial
  | unregisterProvider serviceId =>
    obtain rfl := Option.some.inj hs
    exact iff_of_true h.handed trivial
  | send serviceId =>
    obtain rfl := Option.some.inj hs
    rw [registry_nosServiceMsgSend.2.2]
    exact iff_of_true h.handed trivial
  | drain t =>
    obtain rfl := Option.some.inj hs
    exact h.handed_drain_iff

omit [DecidableEq T] in
theorem Inv.init : (init : ServiceNode C T).Inv where
  refines := ⟨ServiceRegistry.distinct_zero, fun _ => rfl⟩
  handed := fun _ hx => absurd hx List.not_mem_nil

/-- The law of the registry holds along a run exactly if every message is taken while its entry is
not that of a remote service. -/
theorem always_lawful_iff (hasOnMsg : C → Bool) (actions : List (ServiceAction C T)) :
    Run.Always (step hasOnMsg) Lawful (init : ServiceNode C T) actions ↔
      Run.Guarded (step hasOnMsg) (EntryLocal hasOnMsg) init actions :=
  Run.always_iff_guarded (I := Inv) (fun _ h => h.lawful)
    (fun _ _ _ h hs hlaw => h.of_handed hs hlaw.handed) (fun _ _ _ h hs => h.lawful_iff hs)
    Inv.init

/-- A message that waits while its service becomes remote is handed to the provider that the entry
has kept. -/
theorem not_lawful_after_remote : ¬ Run.Always (step fun _ => true) Lawful
    (init : ServiceNode Unit Unit)
    [.registerProviderBind 7 (some ()) (some ()), .send 7,
      .registerRemoteEx 7 (some "B") (some "/tmp/b.sock"), .drain ()] := by
  intro h
  obtain ⟨thread, hbound⟩ := (h.last rfl).handed ⟨7, (), some .toRemote⟩ List.mem_cons_self
  cases hbound

end ServiceNode

end GeminiNOS

import GeminiNOS.Ipc.SocketOwnership
import GeminiNOS.Service.Routes

/-! # The connection of a route

No step of the IPC layer changes the path of a connection, and its name changes only
by a `HELLO`. So every connection has a name that is in the history, and the one that
`get_or_create_conn` finds for a service has the path or the name of its entry.
-/

namespace GeminiNOS

open Foundations

theorem strncpy_strncpy (n : ℕ) (s : String) : strncpy n (strncpy n s) = strncpy n s := by
  simp [strncpy, List.take_take]

namespace IpcNode

variable {B : Type*} {s t u : IpcNode B} {c : ℕ} {nodeName udsPath : Option String}

/-- The connections are the same, with their names and paths. -/
structure SameNames (s t : IpcNode B) : Prop where
  connCount : t.connCount = s.connCount
  nodeName : ∀ c, (t.conns c).nodeName = (s.conns c).nodeName
  udsPath : ∀ c, (t.conns c).udsPath = (s.conns c).udsPath

theorem SameNames.of_conns (hcount : t.connCount = s.connCount) (hconns : t.conns = s.conns) :
    s.SameNames t :=
  ⟨hcount, fun c => by rw [hconns], fun c => by rw [hconns]⟩

theorem SameNames.trans (h : s.SameNames t) (h' : t.SameNames u) : s.SameNames u where
  connCount := h'.connCount.trans h.connCount
  nodeName c := (h'.nodeName c).trans (h.nodeName c)
  udsPath c := (h'.udsPath c).trans (h.udsPath c)

theorem SameNames.congr (h : s.SameNames t) (hcount : u.connCount = t.connCount)
    (hconns : u.conns = t.conns) : s.SameNames u :=
  h.trans (.of_conns hcount hconns)

theorem SameNames.setLink (h : s.SameNames t) (c : ℕ) (link : NosIpcConn B) :
    s.SameNames (t.setLink c link) := by
  refine h.trans ⟨rfl, fun c' => ?_, fun c' => ?_⟩ <;>
  · simp only [IpcNode.setLink, Function.update_apply]
    split
    · rw [‹c' = c›]
    · rfl

theorem sameNames_connectSocket {call : EnqueueCall B} (h : s.connectSocket c call = some t) :
    s.SameNames t := by
  refine .of_conns (connCount_connectSocket h) ?_
  unfold IpcNode.connectSocket at h
  split at h
  · split at h
    · obtain rfl := Option.some.inj h
      rfl
    · obtain ⟨-, h⟩ := Option.ite_none_right_eq_some.mp h
      obtain rfl := Option.some.inj h
      rfl
    · obtain ⟨-, h⟩ := Option.ite_none_right_eq_some.mp h
      obtain rfl := Option.some.inj h
      rfl
  · obtain rfl := Option.some.inj h
    rfl

theorem sameNames_processTx {outcomes : List SendOutcome}
    (h : s.nosIpcProcessTx c outcomes = some t) : s.SameNames t := by
  simp only [IpcNode.nosIpcProcessTx, Option.ite_none_right_eq_some] at h
  obtain ⟨-, h⟩ := h
  obtain ⟨link, -, rfl⟩ := Option.map_eq_some_iff.mp h
  split
  · have hclose : s.SameNames (s.close (s.conns c).link.fd true) := .of_conns rfl rfl
    exact (hclose.setLink c link).congr rfl rfl
  · exact SameNames.setLink (.of_conns rfl rfl) c link

/-- Connections stay with their paths, and with their names unless the step names them. -/
structure Extends (s t : IpcNode B) (named : Option ℕ) : Prop where
  connCount : s.connCount ≤ t.connCount
  nodeName : ∀ c < t.connCount,
    c < s.connCount ∧ (t.conns c).nodeName = (s.conns c).nodeName ∨ named = some c
  udsPath : ∀ c < s.connCount, (t.conns c).udsPath = (s.conns c).udsPath

theorem SameNames.extends {named : Option ℕ} (h : s.SameNames t) : s.Extends t named where
  connCount := h.connCount.ge
  nodeName c hc := .inl ⟨h.connCount ▸ hc, h.nodeName c⟩
  udsPath c _ := h.udsPath c

theorem SameNames.extendsTrans {named : Option ℕ} (h : s.SameNames t) (h' : t.Extends u named) :
    s.Extends u named where
  connCount := h.connCount ▸ h'.connCount
  nodeName c hc := by
    rw [← h.connCount, ← h.nodeName]
    exact h'.nodeName c hc
  udsPath c hc := (h'.udsPath c (h.connCount ▸ hc)).trans (h.udsPath c)

theorem Extends.sameNames {named : Option ℕ} (h : s.Extends t named) (h' : t.SameNames u) :
    s.Extends u named where
  connCount := h'.connCount ▸ h.connCount
  nodeName c hc := by
    rw [h'.nodeName]
    exact h.nodeName c (h'.connCount ▸ hc)
  udsPath c hc := (h'.udsPath c).trans (h.udsPath c hc)

variable [Inhabited B]

/-- The connection of a call is one with the name or the path, or a new one with both. -/
theorem getOrCreateConn_cases (h : s.getOrCreateConn nodeName udsPath = some (c, t)) :
    t = s ∧ c < s.connCount ∧ (s.conns c).Matches nodeName udsPath ∨
    c = s.connCount ∧ t.connCount = s.connCount + 1 ∧
      t.conns = Function.update s.conns s.connCount (.create nodeName udsPath) := by
  unfold IpcNode.getOrCreateConn at h
  split at h
  · rename_i hfind
    obtain ⟨rfl, rfl⟩ := Prod.mk.inj (Option.some.inj h)
    have hlt := List.mem_range.mp (List.mem_of_find?_eq_some hfind)
    rw [findConn] at hfind
    have hmatch := List.find?_some hfind
    exact .inl ⟨rfl, hlt, of_decide_eq_true hmatch⟩
  · obtain ⟨-, h⟩ := Option.ite_none_left_eq_some.mp h
    obtain ⟨rfl, rfl⟩ := Prod.mk.inj (Option.some.inj h)
    exact .inr ⟨rfl, rfl, rfl⟩

theorem Extends.getOrCreateConn (h : s.getOrCreateConn nodeName udsPath = some (c, t)) :
    s.Extends t (some c) := by
  rcases getOrCreateConn_cases h with ⟨rfl, -⟩ | ⟨rfl, hcount, hconns⟩
  · exact SameNames.extends (.of_conns rfl rfl)
  · refine ⟨by omega, fun c' hc' => ?_, fun c' hc' => ?_⟩
    · rcases Nat.lt_succ_iff_lt_or_eq.mp (hcount ▸ hc') with hlt | rfl
      · rw [hconns, Function.update_of_ne hlt.ne]
        exact .inl ⟨hlt, rfl⟩
      · exact .inr rfl
    · rw [hconns, Function.update_of_ne hc'.ne]

theorem sameNames_recvHandler (fd : Fd) (conn : Option ℕ) (registers : Bool) {outcome : RecvOutcome}
    (hhello : ∀ payload, outcome ≠ .hello payload) :
    s.SameNames (s.nosIpcRecvHandler fd conn registers outcome) := by
  cases outcome with
  | dropLink =>
    cases conn with
    | none => exact .of_conns rfl rfl
    | some c =>
      have hclose : s.SameNames ((s.removeFd fd).close fd ((s.conns c).link.fd = fd)) :=
        .of_conns rfl rfl
      exact (hclose.setLink c _).congr rfl rfl
  | hello payload => exact absurd rfl (hhello payload)
  | again => exact .of_conns rfl rfl
  | noBuffer => exact .of_conns rfl rfl
  | partialRecv => exact .of_conns rfl rfl
  | shmEvent => exact .of_conns rfl rfl
  | message bytes => exact .of_conns rfl rfl

/-- The `HELLO` on an accepted socket names at most the connection that it finds or makes. -/
theorem extends_recvPassive (fd : Fd) (registers : Bool) (payload : Bytes) :
    s.Extends (s.nosIpcRecvHandler fd none registers (.hello payload))
      ((s.getOrCreateConn (some (remoteName payload)) none).map Prod.fst) := by
  simp only [IpcNode.nosIpcRecvHandler]
  cases hget : s.getOrCreateConn (some (remoteName payload)) none with
  | none => exact SameNames.extends (.of_conns rfl rfl)
  | some r =>
    obtain ⟨c, t⟩ := r
    refine (Extends.getOrCreateConn hget).sameNames ?_
    have hlink := (SameNames.of_conns (s := t) rfl rfl).setLink c
      { (t.conns c).link with fd := fd, isConnected := true }
    exact hlink.congr rfl rfl

theorem extends_recvConn (fd : Fd) (registers : Bool) (payload : Bytes) :
    s.Extends (s.nosIpcRecvHandler fd (some c) registers (.hello payload)) (some c) where
  connCount := le_rfl
  nodeName c' hc' := by
    by_cases hne : c' = c
    · exact .inr (hne ▸ rfl)
    · refine .inl ⟨hc', ?_⟩
      simp only [IpcNode.nosIpcRecvHandler, Function.update_of_ne hne]
  udsPath c' _ := by
    simp only [IpcNode.nosIpcRecvHandler, Function.update_apply]
    split
    · rw [‹c' = c›]
    · rfl

/-- What a step of the layer that is not an enqueue does to the connections. -/
theorem extends_step {a : IpcAction B} (hne : ∀ call, a ≠ .enqueue call)
    (h : s.step a = some t) : s.Extends t (s.namedByHello a) := by
  have hnext : s.SameNames s.nextEvent := .of_conns rfl rfl
  cases a with
  | ipcInit fd listens registers =>
    obtain ⟨-, h⟩ := Option.ite_none_right_eq_some.mp h
    obtain rfl := Option.some.inj h
    split <;> exact SameNames.extends (.of_conns rfl rfl)
  | enqueue call => exact absurd rfl (hne call)
  | processTx c outcomes =>
    obtain ⟨-, h⟩ := Option.ite_none_right_eq_some.mp h
    have hsame : s.SameNames { s with senders := Function.update s.senders c (s.senders c - 1) } :=
      .of_conns rfl rfl
    exact (hsame.trans (sameNames_processTx h)).extends
  | epollWait reported =>
    obtain ⟨-, h⟩ := Option.ite_none_right_eq_some.mp h
    obtain rfl := Option.some.inj h
    exact SameNames.extends (.of_conns rfl rfl)
  | accept listenFd client registers =>
    obtain ⟨-, h⟩ := Option.ite_none_right_eq_some.mp h
    cases client with
    | none =>
      obtain rfl := Option.some.inj h
      exact hnext.extends
    | some fd =>
      obtain ⟨-, h⟩ := Option.ite_none_right_eq_some.mp h
      obtain rfl := Option.some.inj h
      exact SameNames.extends (hnext.congr rfl rfl)
  | passive fd outcome registers =>
    obtain ⟨-, h⟩ := Option.ite_none_right_eq_some.mp h
    obtain rfl := Option.some.inj h
    by_cases hhello : ∃ payload, outcome = .hello payload
    · obtain ⟨payload, rfl⟩ := hhello
      exact hnext.extendsTrans (extends_recvPassive fd registers payload)
    · exact (hnext.trans (sameNames_recvHandler fd none registers
        fun payload he => hhello ⟨payload, he⟩)).extends
  | event fd c outcomes =>
    obtain ⟨-, h⟩ := Option.ite_none_right_eq_some.mp h
    split at h
    · obtain rfl := Option.some.inj h
      exact hnext.extends
    · obtain ⟨u, hu, rfl⟩ := Option.map_eq_some_iff.mp h
      exact SameNames.extends ((hnext.trans (sameNames_processTx hu)).congr rfl rfl)
  | recv outcome =>
    simp only [IpcNode.step] at h
    split at h
    · cases h
    · rename_i fd c hreceiving
      obtain ⟨-, h⟩ := Option.ite_none_right_eq_some.mp h
      obtain rfl := Option.some.inj h
      have hsame : s.SameNames { s with receiving := none } := .of_conns rfl rfl
      by_cases hhello : ∃ payload, outcome = .hello payload
      · obtain ⟨payload, rfl⟩ := hhello
        rw [namedByHello, hreceiving]
        exact hsame.extendsTrans (extends_recvConn fd true payload)
      · exact (hsame.trans (sameNames_recvHandler fd (some c) true
          fun payload he => hhello ⟨payload, he⟩)).extends
  | otherEvent =>
    obtain ⟨-, h⟩ := Option.ite_none_right_eq_some.mp h
    obtain rfl := Option.some.inj h
    exact hnext.extends

theorem enqueue_cases {call : EnqueueCall B} (h : s.nosIpcSendEnqueueEx call = some t) :
    s.SameNames t ∧ (∀ c, s.acceptedOn call = some c →
      c < s.connCount ∧ (s.conns c).Matches call.nodeName call.env.udsPath) ∨
    s.Extends t (some s.connCount) ∧ t.connCount = s.connCount + 1 ∧
      (t.conns s.connCount).nodeName =
        (IpcConn.create (B := B) call.nodeName call.env.udsPath).nodeName ∧
      (t.conns s.connCount).udsPath =
        (IpcConn.create (B := B) call.nodeName call.env.udsPath).udsPath ∧
      ∀ c, s.acceptedOn call = some c → c = s.connCount := by
  unfold IpcNode.nosIpcSendEnqueueEx at h
  cases hget : s.getOrCreateConn call.nodeName call.env.udsPath with
  | none =>
    rw [hget] at h
    obtain rfl := Option.some.inj h
    refine .inl ⟨.of_conns rfl rfl, fun c hc => ?_⟩
    rw [acceptedOn, hget] at hc
    cases hc
  | some r =>
    obtain ⟨c, s₁⟩ := r
    rw [hget] at h
    obtain ⟨s₂, hconnect, rfl⟩ := Option.map_eq_some_iff.mp h
    have hsame : s₁.SameNames { s₂.setLink c
        ((s₁.conns c).link.nosIpcSendEnqueueEx call.env call.buf).2 with
        senders := if ((s₁.conns c).link.nosIpcSendEnqueueEx call.env call.buf).1 = .ok then
          Function.update s₁.senders c (s₁.senders c + 1) else s₁.senders } :=
      ((sameNames_connectSocket hconnect).setLink c _).congr rfl rfl
    have haccepted : ∀ c', s.acceptedOn call = some c' → c' = c := by
      intro c' hc'
      rw [acceptedOn, hget] at hc'
      obtain ⟨-, hc'⟩ := Option.ite_none_right_eq_some.mp hc'
      exact (Option.some.inj hc').symm
    rcases getOrCreateConn_cases hget with ⟨rfl, hlt, hmatch⟩ | ⟨rfl, hcount, hconns⟩
    · exact .inl ⟨hsame, fun c' hc' => haccepted c' hc' ▸ ⟨hlt, hmatch⟩⟩
    · refine .inr ⟨(Extends.getOrCreateConn hget).sameNames hsame, ?_, ?_, ?_, haccepted⟩
      · rw [hsame.connCount, hcount]
      · rw [hsame.nodeName, hconns, Function.update_self]
      · rw [hsame.udsPath, hconns, Function.update_self]

end IpcNode

def ServiceSlot.Fits {C T : Type*} (slot : ServiceSlot C T) : Prop :=
  strncpy 31 slot.remoteNodeName = slot.remoteNodeName ∧
    strncpy 107 slot.remoteUdsPath = slot.remoteUdsPath

namespace ServiceRegistry

variable {C T : Type*} {reg : ServiceRegistry C T} {serviceId : ℕ}
  {write : ServiceSlot C T → ServiceSlot C T}

theorem fits_register (h : ∀ j, (reg.slots j).Fits) (hw : ∀ slot, slot.Fits → (write slot).Fits)
    (j : ℕ) : ((reg.register serviceId write).2.slots j).Fits := by
  rcases slots_register reg serviceId write j with he | he
  · rw [he]
    exact hw _ (h j)
  · rw [he]
    exact h j

theorem fits_unregister (h : ∀ j, (reg.slots j).Fits) (serviceId j : ℕ) :
    ((reg.nosServiceUnregisterProvider serviceId).2.slots j).Fits := by
  rcases slots_unregister reg serviceId j with he | ⟨j', -, he⟩
  · rw [he]
    exact h j
  · rw [he]
    exact h j'

theorem fits_writeRemote {slot : ServiceSlot C T} (h : slot.Fits) (serviceId : ℕ)
    (nodeName udsPath : Option String) : (writeRemote serviceId nodeName udsPath slot).Fits := by
  constructor
  · cases nodeName with
    | none => exact h.1
    | some nodeName => exact strncpy_strncpy 31 nodeName
  · cases udsPath with
    | none => exact h.2
    | some udsPath => exact strncpy_strncpy 107 udsPath

theorem fits_findServiceEntry {slot : ServiceSlot C T} (h : ∀ j, (reg.slots j).Fits)
    (hfind : reg.findServiceEntry serviceId = some slot) : slot.Fits := by
  obtain ⟨i, -, rfl⟩ := Option.map_eq_some_iff.mp hfind
  exact h i

end ServiceRegistry

namespace RouteNode

variable {C T B : Type*} {s s' : RouteNode C T B}

def Registered (s : RouteNode C T B) : Prop :=
  ∀ id slot, s.reg.findServiceEntry id = some slot →
    (∀ nodeName, (s.registered id).1 = some nodeName →
      slot.remoteNodeName = strncpy 31 nodeName) ∧
    ∀ udsPath, (s.registered id).2 = some udsPath → slot.remoteUdsPath = strncpy 107 udsPath

/-- What the registry relies on. A service without an entry has not been registered. -/
structure RegInv (s : RouteNode C T B) : Prop where
  distinct : s.reg.Distinct
  fits : ∀ j, (s.reg.slots j).Fits
  registered : s.Registered
  unregistered : ∀ id, s.reg.findServiceEntry id = none → s.registered id = (none, none)

/-- What the history relies on. The present names of connections are in it. -/
structure NamesInv (s : RouteNode C T B) : Prop where
  named : ∀ c < s.ipc.connCount, s.Named c (s.ipc.conns c).nodeName
  queued : ∀ r ∈ s.routed, r.conn < s.ipc.connCount ∧
    ((s.ipc.conns r.conn).udsPath = r.udsPath ∨ s.Named r.conn r.nodeName)
  created : ∀ naming ∈ s.namings, ∀ id udsPath, naming.source = .service id udsPath →
    naming.conn < s.ipc.connCount ∧ (s.ipc.conns naming.conn).udsPath = udsPath

theorem routes_of_inv (hreg : s.RegInv) (h : s.NamesInv) : s.Routes where
  registered := hreg.registered
  queued := h.queued
  shared := by
    intro r r' hr hr' hconn hne
    rcases (h.queued r hr).2 with hpath | hnamed
    · rcases (h.queued r' hr').2 with hpath' | hnamed'
      · rw [← hconn] at hpath'
        exact absurd (hpath.symm.trans hpath') hne
      · exact .inr (hconn ▸ hnamed')
    · exact .inl hnamed
  created naming hmem id udsPath hsource := (h.created naming hmem id udsPath hsource).2

theorem RegInv.writtenSlot (h : s.RegInv) {id : ℕ} {slot : ServiceSlot C T}
    (hold : ∀ old, s.reg.findServiceEntry id = some old → slot = old) :
    (∀ nodeName, (s.registered id).1 = some nodeName →
      slot.remoteNodeName = strncpy 31 nodeName) ∧
    ∀ udsPath, (s.registered id).2 = some udsPath → slot.remoteUdsPath = strncpy 107 udsPath := by
  cases hentry : s.reg.findServiceEntry id with
  | none =>
    rw [h.unregistered id hentry]
    constructor <;> rintro x ⟨⟩
  | some old =>
    obtain rfl := hold old hentry
    exact h.registered id slot hentry

theorem RegInv.registerProviderBind (h : s.RegInv) (id : ℕ) (provider : Option C)
    (thread : Option T) :
    RegInv { s with reg := (s.reg.nosServiceRegisterProviderBind id provider thread).2 } := by
  have hw : ∀ slot : ServiceSlot C T,
      (ServiceRegistry.writeProvider id provider thread slot).serviceId = id := fun _ => rfl
  have hfits : ∀ j, ((s.reg.register id
      (ServiceRegistry.writeProvider id provider thread)).2.slots j).Fits :=
    ServiceRegistry.fits_register h.fits fun _ hslot => hslot
  unfold ServiceRegistry.nosServiceRegisterProviderBind
  rcases ServiceRegistry.register_cases h.distinct hw with he | ⟨-, hdistinct, slot, hold, hfind⟩
  · rw [he]
    exact h
  · refine ⟨hdistinct, hfits, fun id' slot' hslot => ?_, fun id' hnone => ?_⟩
    · have hslot' := (hfind id').symm.trans hslot
      split at hslot'
      · obtain rfl := ‹id' = id›
        obtain rfl := Option.some.inj hslot'
        have hslot₀ := h.writtenSlot hold
        exact hslot₀
      · exact h.registered id' slot' hslot'
    · have hnone' := (hfind id').symm.trans hnone
      split at hnone'
      · cases hnone'
      · exact h.unregistered id' hnone'

theorem RegInv.registerRemote (h : s.RegInv) (id : ℕ) (nodeName udsPath : Option String) :
    (s.registerRemote id nodeName udsPath
      (s.reg.nosServiceRegisterRemoteEx id nodeName udsPath)).RegInv := by
  have hw : ∀ slot : ServiceSlot C T,
      (ServiceRegistry.writeRemote id nodeName udsPath slot).serviceId = id := fun _ => rfl
  have hfits : ∀ j, ((s.reg.register id
      (ServiceRegistry.writeRemote id nodeName udsPath)).2.slots j).Fits :=
    ServiceRegistry.fits_register h.fits
      fun slot hslot => ServiceRegistry.fits_writeRemote hslot id nodeName udsPath
  unfold ServiceRegistry.nosServiceRegisterRemoteEx
  rcases ServiceRegistry.register_cases h.distinct hw with he | ⟨hok, hdistinct, slot, hold, hfind⟩
  · rw [he]
    exact h
  · have hregistered : ∀ id', (s.registerRemote id nodeName udsPath (s.reg.register id
        (ServiceRegistry.writeRemote id nodeName udsPath))).registered id' =
        if id' = id then (nodeName <|> (s.registered id).1, udsPath <|> (s.registered id).2)
        else s.registered id' := by
      intro id'
      simp only [RouteNode.registerRemote, if_pos hok, setRegistered, Function.update_apply]
    have hslot₀ := h.writtenSlot hold
    refine ⟨hdistinct, hfits, fun id' slot' hslot => ?_, fun id' hnone => ?_⟩
    · have hslot' := (hfind id').symm.trans hslot
      rw [hregistered]
      split at hslot'
      · obtain rfl := Option.some.inj hslot'
        rw [if_pos ‹_›]
        constructor
        · intro n hn
          cases nodeName with
          | none => exact hslot₀.1 n hn
          | some nodeName => exact Option.some.inj hn ▸ rfl
        · intro p hp
          cases udsPath with
          | none => exact hslot₀.2 p hp
          | some udsPath => exact Option.some.inj hp ▸ rfl
      · rw [if_neg ‹_›]
        exact h.registered id' slot' hslot'
    · have hnone' := (hfind id').symm.trans hnone
      rw [hregistered]
      split at hnone'
      · cases hnone'
      · rw [if_neg ‹_›]
        exact h.unregistered id' hnone'

theorem RegInv.unregisterProvider (h : s.RegInv) (id : ℕ) :
    RegInv { s with
      reg := (s.reg.nosServiceUnregisterProvider id).2
      registered := if (s.reg.nosServiceUnregisterProvider id).1 = .ok then
        Function.update s.registered id (none, none) else s.registered } := by
  have hfits := ServiceRegistry.fits_unregister h.fits id
  rcases ServiceRegistry.unregister_cases h.distinct id with ⟨-, he⟩ | ⟨hok, hdistinct, hfind⟩
  · rw [he]
    exact h
  · rw [if_pos hok]
    refine ⟨hdistinct, hfits, fun id' slot hslot => ?_, fun id' hnone => ?_⟩
    · have hslot' := (hfind id').symm.trans hslot
      split at hslot'
      · cases hslot'
      · show (∀ nodeName, (Function.update s.registered id (none, none) id').1 = _ → _) ∧
          ∀ udsPath, (Function.update s.registered id (none, none) id').2 = _ → _
        rw [Function.update_of_ne ‹_›]
        exact h.registered id' slot hslot'
    · have hnone' := (hfind id').symm.trans hnone
      show Function.update s.registered id (none, none) id' = _
      rw [Function.update_apply]
      split
      · rfl
      · rw [if_neg ‹_›] at hnone'
        exact h.unregistered id' hnone'

theorem RegInv.congr (h : s.RegInv) (hreg : s'.reg = s.reg)
    (hregistered : s'.registered = s.registered) : s'.RegInv where
  distinct := hreg ▸ h.distinct
  fits := hreg ▸ h.fits
  registered id slot hfind := by
    rw [hregistered]
    exact h.registered id slot (hreg ▸ hfind)
  unregistered id hnone := by
    rw [hregistered]
    exact h.unregistered id (hreg ▸ hnone)

theorem Named.append {c : ℕ} {nodeName : String} (h : s.Named c nodeName) (ipc : IpcNode B)
    (new : List Naming) (routed : List Routed) :
    Named { s with ipc := ipc, namings := s.namings ++ new, routed := routed } c nodeName := by
  obtain ⟨naming, hmem, hnaming⟩ := h
  exact ⟨naming, List.mem_append_left _ hmem, hnaming⟩

/-- A step that puts into the history the name that it gives to a connection, and queues buffers on
connections that have the path or the name. -/
theorem NamesInv.extends (h : s.NamesInv) {ipc : IpcNode B} {named : Option ℕ}
    (hext : s.ipc.Extends ipc named) (new : List Naming) (routed : List Routed)
    (hnew : ∀ c, named = some c → c < ipc.connCount →
      ∃ naming ∈ new, naming.conn = c ∧ naming.nodeName = (ipc.conns c).nodeName)
    (hcreated : ∀ naming ∈ new, ∀ id udsPath, naming.source = .service id udsPath →
      naming.conn < ipc.connCount ∧ (ipc.conns naming.conn).udsPath = udsPath)
    (hrouted : ∀ r ∈ routed, r.conn < ipc.connCount ∧
      ((ipc.conns r.conn).udsPath = r.udsPath ∨ (ipc.conns r.conn).nodeName = r.nodeName)) :
    NamesInv { s with
      ipc := ipc
      namings := s.namings ++ new
      routed := s.routed ++ routed } := by
  have hnamed : ∀ c < ipc.connCount, Named { s with
      ipc := ipc
      namings := s.namings ++ new
      routed := s.routed ++ routed } c (ipc.conns c).nodeName := by
    intro c hc
    rcases hext.nodeName c hc with ⟨hlt, hname⟩ | hname
    · rw [hname]
      exact (h.named c hlt).append ipc new _
    · obtain ⟨naming, hmem, hnaming⟩ := hnew c hname hc
      exact ⟨naming, List.mem_append_right _ hmem, hnaming⟩
  refine ⟨hnamed, fun r hr => ?_, fun naming hmem id udsPath hsource => ?_⟩
  · rcases List.mem_append.mp hr with hr | hr
    · obtain ⟨hlt, hold⟩ := h.queued r hr
      refine ⟨hlt.trans_le hext.connCount, hold.imp (fun hpath => ?_) fun hname => ?_⟩
      · exact (hext.udsPath _ hlt).trans hpath
      · exact hname.append ipc new _
    · obtain ⟨hlt, hmatch⟩ := hrouted r hr
      refine ⟨hlt, hmatch.imp_right fun hname => ?_⟩
      rw [← hname]
      exact hnamed _ hlt
  · rcases List.mem_append.mp hmem with hmem | hmem
    · obtain ⟨hlt, hpath⟩ := h.created naming hmem id udsPath hsource
      exact ⟨hlt.trans_le hext.connCount, (hext.udsPath _ hlt).trans hpath⟩
    · exact hcreated naming hmem id udsPath hsource

variable [Inhabited B]

theorem NamesInv.stepIpc (h : s.NamesInv) {action : IpcAction B}
    (hne : ∀ call, action ≠ .enqueue call) (hs : s.stepIpc action = some s') :
    s'.NamesInv ∧ s'.reg = s.reg ∧ s'.registered = s.registered := by
  obtain ⟨ipc, hipc, rfl⟩ := Option.map_eq_some_iff.mp hs
  refine ⟨?_, rfl, rfl⟩
  have hinv := h.extends (IpcNode.extends_step hne hipc)
    ((s.ipc.namedByHello action).toList.map fun c => ⟨c, (ipc.conns c).nodeName, .hello⟩) []
    (fun c hc _ => ⟨⟨c, (ipc.conns c).nodeName, .hello⟩, by simp [hc], rfl, rfl⟩)
    (fun naming hmem id udsPath hsource => ?_) (fun r hr => absurd hr List.not_mem_nil)
  · simpa using hinv
  · obtain ⟨c, -, rfl⟩ := List.mem_map.mp hmem
    cases hsource

theorem NamesInv.enqueue (h : s.NamesInv) {slot : ServiceSlot C T} (hfits : slot.Fits)
    {call : EnqueueCall B} {buf : B}
    (hs : s.nosIpcSendEnqueueEx slot (remoteCall slot call buf) = some s') :
    s'.NamesInv ∧ s'.reg = s.reg ∧ s'.registered = s.registered := by
  obtain ⟨ipc, hipc, rfl⟩ := Option.map_eq_some_iff.mp hs
  refine ⟨?_, rfl, rfl⟩
  have hmem : ∀ r ∈ ((s.ipc.acceptedOn (remoteCall slot call buf)).toList.map fun c =>
      (⟨slot.serviceId, slot.remoteNodeName, slot.remoteUdsPath, c⟩ : Routed)),
      s.ipc.acceptedOn (remoteCall slot call buf) = some r.conn ∧
        r.nodeName = slot.remoteNodeName ∧ r.udsPath = slot.remoteUdsPath := by
    intro r hr
    obtain ⟨c, hc, rfl⟩ := List.mem_map.mp hr
    exact ⟨Option.mem_toList.mp hc, rfl, rfl⟩
  rcases IpcNode.enqueue_cases hipc with ⟨hsame, haccepted⟩ |
    ⟨hext, hcount, hname, hpath, haccepted⟩
  · have hnaming : s.newNaming slot ipc = [] := by
      rw [newNaming, if_neg (by rw [hsame.connCount]; omega)]
    rw [hnaming]
    have hext : s.ipc.Extends ipc none := hsame.extends
    refine h.extends hext [] _ (by rintro c ⟨⟩)
      (fun naming hn => absurd hn List.not_mem_nil) fun r hr => ?_
    obtain ⟨hc, hrname, hrpath⟩ := hmem r hr
    obtain ⟨hlt, hmatch⟩ := haccepted _ hc
    rw [hsame.connCount, hsame.nodeName, hsame.udsPath, hrname, hrpath]
    refine ⟨hlt, ?_⟩
    rcases hmatch with hn | hp
    · exact .inr (Option.some.inj hn).symm
    · exact .inl (Option.some.inj hp).symm
  · have hname' : (ipc.conns s.ipc.connCount).nodeName = slot.remoteNodeName := hname.trans hfits.1
    have hpath' : (ipc.conns s.ipc.connCount).udsPath = slot.remoteUdsPath := hpath.trans hfits.2
    have hnaming : s.newNaming slot ipc = [⟨s.ipc.connCount, slot.remoteNodeName,
        .service slot.serviceId slot.remoteUdsPath⟩] := by
      rw [newNaming, if_pos (by omega)]
    rw [hnaming]
    refine h.extends hext _ _ (fun c hc _ => ?_) (fun naming hn id udsPath hsource => ?_)
      fun r hr => ?_
    · obtain rfl := Option.some.inj hc
      exact ⟨_, List.mem_singleton.mpr rfl, rfl, hname'.symm⟩
    · obtain rfl := List.mem_singleton.mp hn
      obtain ⟨-, rfl⟩ := NameSource.service.inj hsource
      exact ⟨by simp [hcount], hpath'⟩
    · obtain ⟨hc, -, hrpath⟩ := hmem r hr
      rw [haccepted _ hc, hrpath]
      exact ⟨by omega, .inl hpath'⟩

theorem NamesInv.msgSend (h : s.NamesInv) (hreg : s.RegInv) {dstService : ℕ}
    {carrier : Carrier B} {call : EnqueueCall B}
    (hs : s.nosServiceMsgSend dstService carrier call = some s') :
    s'.NamesInv ∧ s'.reg = s.reg ∧ s'.registered = s.registered := by
  unfold nosServiceMsgSend at hs
  split at hs
  · obtain rfl := Option.some.inj hs
    exact ⟨h, rfl, rfl⟩
  · have hfits := ServiceRegistry.fits_findServiceEntry hreg.fits ‹_›
    split at hs
    · unfold nosTransportRemoteUdsSend at hs
      split at hs
      · exact h.enqueue hfits hs
      · exact h.enqueue hfits hs
      · obtain rfl := Option.some.inj hs
        exact ⟨h, rfl, rfl⟩
    · obtain rfl := Option.some.inj hs
      exact ⟨h, rfl, rfl⟩

theorem inv_step {a : RouteAction C T B} (hreg : s.RegInv) (h : s.NamesInv)
    (hs : s.step a = some s') : s'.RegInv ∧ s'.NamesInv := by
  cases a with
  | registerProviderBind id provider thread =>
    obtain rfl := Option.some.inj hs
    exact ⟨hreg.registerProviderBind id provider thread, { h with }⟩
  | registerRemoteEx id nodeName udsPath =>
    obtain rfl := Option.some.inj hs
    exact ⟨hreg.registerRemote id nodeName udsPath, { h with }⟩
  | registerRemote id udsPath =>
    obtain rfl := Option.some.inj hs
    exact ⟨hreg.registerRemote id (some "Unknown") udsPath, { h with }⟩
  | unregisterProvider id =>
    obtain rfl := Option.some.inj hs
    exact ⟨hreg.unregisterProvider id, { h with }⟩
  | msgSend dstService carrier call =>
    obtain ⟨hnames, hkeep, hkeep'⟩ := h.msgSend hreg hs
    exact ⟨hreg.congr hkeep hkeep', hnames⟩
  | ipc action =>
    have hne : ∀ call, action ≠ .enqueue call := by
      rintro call rfl
      cases hs
    have hs' : s.stepIpc action = some s' := by
      cases action with
      | enqueue call => exact absurd rfl (hne call)
      | _ => exact hs
    obtain ⟨hnames, hkeep, hkeep'⟩ := h.stepIpc hne hs'
    exact ⟨hreg.congr hkeep hkeep', hnames⟩

theorem inv_start (notifyFd : Fd) : (start notifyFd : RouteNode C T B).RegInv ∧
    (start notifyFd : RouteNode C T B).NamesInv := by
  refine ⟨⟨ServiceRegistry.distinct_zero, fun j => ⟨by rfl, by rfl⟩, ?_, fun _ _ => rfl⟩, ?_⟩
  · rintro id slot hfind
    cases hfind
  · exact ⟨fun c hc => absurd hc (Nat.not_lt_zero c), fun r hr => absurd hr List.not_mem_nil,
      fun naming hn => absurd hn List.not_mem_nil⟩

/-- In every run, what is queued for a remote service is on a connection with its path, or one that
has had the name of its node. -/
theorem always_routes (notifyFd : Fd) (actions : List (RouteAction C T B)) :
    Run.Always step (Routes (C := C) (T := T) (B := B)) (start notifyFd) actions :=
  Run.always_of_invariant (I := fun s => s.RegInv ∧ s.NamesInv)
    (fun _ _ _ h hs => inv_step h.1 h.2 hs) (fun _ h => routes_of_inv h.1 h.2) (inv_start notifyFd)

def connectCall (fd : ℕ) : EnqueueCall ℕ where
  nodeName := none
  env := ⟨none, .connects fd, none⟩
  attempt := fd
  registers := true
  buf := 0

/-- A service of a node that is registered with a second path is queued on the connection that was
made with the first one, and no `HELLO` has named it. -/
theorem not_queued_second_path : ∃ t, Run.exec step (start 3 : RouteNode Unit Unit ℕ)
    [.registerRemoteEx 1 (some "B") (some "/b1"), .registerRemoteEx 2 (some "B") (some "/b2"),
      .msgSend 1 (.pool 7) (connectCall 10), .msgSend 2 (.pool 8) (connectCall 11)] = some t ∧
    ¬ ∀ r ∈ t.routed, (t.ipc.conns r.conn).udsPath = r.udsPath ∨
      ∃ naming ∈ t.namings, naming.conn = r.conn ∧ naming.nodeName = r.nodeName ∧
        naming.source = .hello := by
  apply Run.exists_exec (fun t => (t.routed, t.namings, (t.ipc.conns 0).udsPath))
    ([⟨1, "B", "/b1", 0⟩, ⟨2, "B", "/b2", 0⟩], [⟨0, "B", .service 1 "/b1"⟩], "/b1") (by decide)
  intro t hfinal h
  obtain ⟨hrouted, hrest⟩ := Prod.mk.inj hfinal
  obtain ⟨hnamings, hpath⟩ := Prod.mk.inj hrest
  rcases h ⟨2, "B", "/b2", 0⟩ (by simp [hrouted]) with he | ⟨naming, hmem, -, -, hsource⟩
  · rw [hpath] at he
    exact absurd he (by decide)
  · rw [hnamings] at hmem
    obtain rfl := List.mem_singleton.mp hmem
    cases hsource

end RouteNode

end GeminiNOS

import GeminiNOS.Basic
import GeminiNOS.Foundations.Run
import GeminiNOS.Foundations.SlotTable
import GeminiNOS.Ipc.Sockets

/-! # The service registry

The registry is an array of slots. A registration overwrites the fields of its own
kind and leaves the others as they are, also in a slot that a removed entry has left
behind. Sends choose the thread or the remote node of a service by its entry, and a
thread that takes a message from its queue looks up the provider once more.
-/

namespace GeminiNOS

open Foundations

/-- The length of `g_service_registry`. -/
def maxServices : ℕ := 64

/-- `service_entry_t` -/
structure ServiceSlot (C T : Type*) where
  serviceId : ℕ
  localProvider : Option C
  localThread : Option T
  isRemote : Bool
  remoteNodeName : String
  remoteUdsPath : String
  deriving DecidableEq, Repr

/-- `g_service_registry` with `g_service_count`. -/
abbrev ServiceRegistry (C T : Type*) := SlotTable (ServiceSlot C T)

namespace ServiceRegistry

variable {C T : Type*}

/-- `find_service_entry` -/
def findServiceEntry (reg : ServiceRegistry C T) (serviceId : ℕ) : Option (ServiceSlot C T) :=
  reg.find ServiceSlot.serviceId serviceId

/-- A registration: it writes to the entry of its service, or to the next slot. -/
def register (reg : ServiceRegistry C T) (serviceId : ℕ)
    (write : ServiceSlot C T → ServiceSlot C T) : NosStatus × ServiceRegistry C T :=
  match reg.findIdx ServiceSlot.serviceId serviceId with
  | some i => (.ok, reg.set i (write (reg.slots i)))
  | none =>
    if maxServices ≤ reg.count then (.err, reg) else (.ok, reg.push (write (reg.slots reg.count)))

/-- The fields that `nos_service_register_provider_bind` writes. -/
def writeProvider (serviceId : ℕ) (provider : Option C) (thread : Option T)
    (slot : ServiceSlot C T) : ServiceSlot C T :=
  { slot with
    serviceId := serviceId
    localProvider := provider
    localThread := thread
    isRemote := false }

/-- `nos_service_register_provider_bind` -/
def nosServiceRegisterProviderBind (reg : ServiceRegistry C T) (serviceId : ℕ)
    (provider : Option C) (thread : Option T) : NosStatus × ServiceRegistry C T :=
  reg.register serviceId (writeProvider serviceId provider thread)

/-- The fields that `nos_service_register_remote_ex` writes. -/
def writeRemote (serviceId : ℕ) (nodeName udsPath : Option String) (slot : ServiceSlot C T) :
    ServiceSlot C T :=
  { slot with
    serviceId := serviceId
    isRemote := true
    remoteNodeName := (nodeName.map (strncpy 31)).getD slot.remoteNodeName
    remoteUdsPath := (udsPath.map (strncpy 107)).getD slot.remoteUdsPath }

/-- `nos_service_register_remote_ex` -/
def nosServiceRegisterRemoteEx (reg : ServiceRegistry C T) (serviceId : ℕ)
    (nodeName udsPath : Option String) : NosStatus × ServiceRegistry C T :=
  reg.register serviceId (writeRemote serviceId nodeName udsPath)

/-- `nos_service_register_remote` -/
def nosServiceRegisterRemote (reg : ServiceRegistry C T) (serviceId : ℕ)
    (udsPath : Option String) : NosStatus × ServiceRegistry C T :=
  reg.nosServiceRegisterRemoteEx serviceId (some "Unknown") udsPath

/-- `nos_service_unregister_provider` -/
def nosServiceUnregisterProvider (reg : ServiceRegistry C T) (serviceId : ℕ) :
    NosStatus × ServiceRegistry C T :=
  match reg.findIdx ServiceSlot.serviceId serviceId with
  | some i => (.ok, reg.swapRemove i)
  | none => (.err, reg)

def zero : ServiceRegistry C T := ⟨fun _ => ⟨0, none, none, false, "", ""⟩, 0⟩

abbrev Distinct (reg : ServiceRegistry C T) : Prop := SlotTable.Distinct ServiceSlot.serviceId reg

variable {reg : ServiceRegistry C T} {serviceId id : ℕ} {slot : ServiceSlot C T}
  {write : ServiceSlot C T → ServiceSlot C T}

theorem distinct_zero : (zero : ServiceRegistry C T).Distinct :=
  fun _ hi => absurd hi (Nat.not_lt_zero _)

/-- What a registration does: it writes to an entry of the service, wherever that has come from, or
it fails without an effect. -/
theorem register_cases (h : reg.Distinct) (hw : ∀ slot, (write slot).serviceId = serviceId) :
    reg.register serviceId write = (.err, reg) ∨
    (reg.register serviceId write).1 = .ok ∧ (reg.register serviceId write).2.Distinct ∧
      ∃ slot, (∀ old, reg.findServiceEntry serviceId = some old → slot = old) ∧
        ∀ id, (reg.register serviceId write).2.findServiceEntry id =
          if id = serviceId then some (write slot) else reg.findServiceEntry id := by
  unfold register
  cases hi : reg.findIdx ServiceSlot.serviceId serviceId with
  | some i =>
    refine .inr ⟨rfl, h.set hi (hw _), reg.slots i, fun old hold => ?_, fun id => ?_⟩
    · rw [findServiceEntry, SlotTable.find, hi] at hold
      exact Option.some.inj hold
    · exact h.find_set hi (hw _)
  | none =>
    by_cases hfull : maxServices ≤ reg.count
    · exact .inl (if_pos hfull)
    · have hnone : reg.findServiceEntry serviceId = none := by
        rw [findServiceEntry, SlotTable.find, hi]
        rfl
      rw [if_neg hfull]
      refine .inr ⟨rfl, h.push hi (hw _), reg.slots reg.count, fun old hold => ?_, fun id => ?_⟩
      · rw [hnone] at hold
        cases hold
      · exact h.find_push hi (hw _)

theorem unregister_cases (h : reg.Distinct) (serviceId : ℕ) :
    reg.findServiceEntry serviceId = none ∧
      reg.nosServiceUnregisterProvider serviceId = (.err, reg) ∨
    (reg.nosServiceUnregisterProvider serviceId).1 = .ok ∧
      (reg.nosServiceUnregisterProvider serviceId).2.Distinct ∧
      ∀ id, (reg.nosServiceUnregisterProvider serviceId).2.findServiceEntry id =
        if id = serviceId then none else reg.findServiceEntry id := by
  unfold nosServiceUnregisterProvider
  cases hi : reg.findIdx ServiceSlot.serviceId serviceId with
  | some i =>
    exact .inr ⟨rfl, h.swapRemove (SlotTable.lt_of_findIdx hi), fun id => h.find_swapRemove hi⟩
  | none =>
    refine .inl ⟨?_, rfl⟩
    rw [findServiceEntry, SlotTable.find, hi]
    rfl

theorem findServiceEntry_unregister (h : reg.Distinct) (hne : id ≠ serviceId) :
    (reg.nosServiceUnregisterProvider serviceId).2.findServiceEntry id =
      reg.findServiceEntry id := by
  rcases unregister_cases h serviceId with ⟨-, he⟩ | ⟨-, -, hfind⟩
  · rw [he]
  · rw [hfind, if_neg hne]

theorem slots_register (reg : ServiceRegistry C T) (serviceId : ℕ)
    (write : ServiceSlot C T → ServiceSlot C T) (j : ℕ) :
    (reg.register serviceId write).2.slots j = write (reg.slots j) ∨
      (reg.register serviceId write).2.slots j = reg.slots j := by
  unfold register
  split
  · rw [SlotTable.slots_set]
    split
    · exact .inl (by rw [‹j = _›])
    · exact .inr rfl
  · split
    · exact .inr rfl
    · rw [SlotTable.slots_push]
      split
      · exact .inl (by rw [‹j = _›])
      · exact .inr rfl

/-- A slot in use after a registration has been written to, or was in use before. One that was in
use and is written to belongs to the service. -/
theorem slots_register_lt {j : ℕ} (hj : j < (reg.register serviceId write).2.count) :
    (reg.register serviceId write).2.slots j = reg.slots j ∧ j < reg.count ∨
      (reg.register serviceId write).2.slots j = write (reg.slots j) ∧
        (j < reg.count ∧ (reg.slots j).serviceId = serviceId ∨ j = reg.count) := by
  unfold register at hj ⊢
  split at hj <;> rename_i hi
  · rw [SlotTable.slots_set]
    split
    · refine .inr ⟨by rw [‹j = _›], .inl ⟨hj, ?_⟩⟩
      rw [‹j = _›, SlotTable.key_of_findIdx hi]
    · exact .inl ⟨rfl, hj⟩
  · split at hj
    · rw [if_pos ‹_›]
      exact .inl ⟨rfl, hj⟩
    · rw [if_neg ‹_›, SlotTable.slots_push]
      split
      · exact .inr ⟨by rw [‹j = _›], .inr ‹_›⟩
      · have hj' : j < reg.count + 1 := hj
        exact .inl ⟨rfl, by omega⟩

theorem slots_register_ge {j : ℕ} (hj : (reg.register serviceId write).2.count ≤ j) :
    (reg.register serviceId write).2.slots j = reg.slots j ∧ reg.count ≤ j := by
  unfold register at hj ⊢
  split at hj <;> rename_i hi
  · have hj' : reg.count ≤ j := hj
    have hlt := SlotTable.lt_of_findIdx hi
    rw [SlotTable.slots_set, if_neg (by omega)]
    exact ⟨rfl, hj'⟩
  · split at hj
    · rw [if_pos ‹_›]
      exact ⟨rfl, hj⟩
    · have hj' : reg.count + 1 ≤ j := hj
      rw [if_neg ‹_›, SlotTable.slots_push, if_neg (by omega)]
      exact ⟨rfl, by omega⟩

theorem slots_unregister (reg : ServiceRegistry C T) (serviceId j : ℕ) :
    (reg.nosServiceUnregisterProvider serviceId).2.slots j = reg.slots j ∨
      ∃ j' < reg.count,
        (reg.nosServiceUnregisterProvider serviceId).2.slots j = reg.slots j' := by
  unfold nosServiceUnregisterProvider
  split <;> rename_i hi
  · rw [SlotTable.slots_swapRemove]
    split
    · have := SlotTable.lt_of_findIdx hi
      exact .inr ⟨_, by omega, rfl⟩
    · exact .inl rfl
  · exact .inl rfl

theorem slots_unregister_lt (h : reg.Distinct) {j : ℕ}
    (hj : j < (reg.nosServiceUnregisterProvider serviceId).2.count) :
    ∃ j' < reg.count, (reg.slots j').serviceId ≠ serviceId ∧
      (reg.nosServiceUnregisterProvider serviceId).2.slots j = reg.slots j' := by
  unfold nosServiceUnregisterProvider at hj ⊢
  split at hj <;> rename_i hi
  · have hlt := SlotTable.lt_of_findIdx hi
    obtain ⟨j', hj', hne, hslot, -⟩ := SlotTable.slots_of_swapRemove hlt hj
    refine ⟨j', hj', fun he => hne (h j' hj' _ hlt ?_), hslot⟩
    rw [he, SlotTable.key_of_findIdx hi]
  · exact ⟨j, hj, SlotTable.findIdx_eq_none.mp hi j hj, rfl⟩

theorem Distinct.register (h : reg.Distinct) (hw : ∀ slot, (write slot).serviceId = serviceId) :
    (reg.register serviceId write).2.Distinct := by
  rcases register_cases h hw with he | ⟨-, hd, -⟩
  · rw [he]
    exact h
  · exact hd

theorem Distinct.unregister (h : reg.Distinct) (serviceId : ℕ) :
    (reg.nosServiceUnregisterProvider serviceId).2.Distinct := by
  rcases unregister_cases h serviceId with ⟨-, he⟩ | ⟨-, hd, -⟩
  · rw [he]
    exact h
  · exact hd

end ServiceRegistry

end GeminiNOS

import GeminiNOS.Foundations.Since
import GeminiNOS.Kv.Notification

/-! # The log of the subscriptions

The log of a run says which keys are live and which pairs are subscribed to them. A map
from live keys to lists of pairs, changed by one call at a time, follows the log.
-/

namespace GeminiNOS

open Foundations

abbrev KvReturned := KvWrite × NosStatus

variable {log : List KvReturned} {e : KvReturned} {key key' : Bytes} {sub : NosKvSub}

def PutOk (key : Bytes) (e : KvReturned) : Prop := ∃ val valLen, e = (.put key val valLen, .ok)

def KeyLive (key : Bytes) (log : List KvReturned) : Prop :=
  Since (fun e _ => PutOk key e) (fun e _ => e = (.del key, .ok)) log

def InsertOk (key : Bytes) (e : KvReturned) (earlier : List KvReturned) : Prop :=
  PutOk key e ∧ ¬ KeyLive key earlier

/-- The pair has been subscribed to the key, and since then it has not been unsubscribed and the key
has not been inserted. -/
def Subscribed (key : Bytes) (sub : NosKvSub) (log : List KvReturned) : Prop :=
  Since (fun e _ => e = (.subscribe key sub, .ok))
    (fun e earlier => e = (.unsubscribe key sub, .ok) ∨ InsertOk key e earlier) log

theorem keyLive_cons :
    KeyLive key (e :: log) ↔ PutOk key e ∨ e ≠ (.del key, .ok) ∧ KeyLive key log :=
  since_cons

theorem subscribed_cons :
    Subscribed key sub (e :: log) ↔ e = (.subscribe key sub, .ok) ∨
      ¬ (e = (.unsubscribe key sub, .ok) ∨ InsertOk key e log) ∧ Subscribed key sub log :=
  since_cons

theorem keyLive_cons_of_ne (h : e.1.key = key → e.2 ≠ .ok) :
    KeyLive key (e :: log) ↔ KeyLive key log := by
  have hput : ¬ PutOk key e := by
    rintro ⟨val, valLen, rfl⟩
    exact h rfl rfl
  have hdel : e ≠ (.del key, .ok) := by
    rintro rfl
    exact h rfl rfl
  rw [keyLive_cons, or_iff_right hput, and_iff_right hdel]

theorem subscribed_cons_of_ne (h : e.1.key = key → e.2 ≠ .ok) :
    Subscribed key sub (e :: log) ↔ Subscribed key sub log := by
  have hput : ¬ InsertOk key e log := by
    rintro ⟨⟨val, valLen, rfl⟩, -⟩
    exact h rfl rfl
  have hsub : e ≠ (.subscribe key sub, .ok) := by
    rintro rfl
    exact h rfl rfl
  have hunsub : e ≠ (.unsubscribe key sub, .ok) := by
    rintro rfl
    exact h rfl rfl
  rw [subscribed_cons, or_iff_right hsub]
  exact and_iff_right (not_or.mpr ⟨hunsub, hput⟩)

abbrev SubMap := Bytes → Option (List NosKvSub)

namespace SubMap

/-- What a call does to the subscribers of its key, if it succeeds. -/
def change (subs? : Option (List NosKvSub)) : KvWrite → Option (List NosKvSub)
  | .put _ _ _ => some (subs?.getD [])
  | .del _ => none
  | .subscribe _ sub => subs?.map fun subs => subs.insert sub
  | .unsubscribe _ sub => subs?.map fun subs => subs.erase sub

def after (m : SubMap) (e : KvReturned) : SubMap :=
  if e.2 = .ok then Function.update m e.1.key (change (m e.1.key) e.1) else m

/-- What a call answers: the status, and the callbacks of a put. -/
def Answers (m : SubMap) (maxValSize : ℕ) (st : NosStatus) (notified : List KvNotification) :
    KvWrite → Prop
  | .put key val valLen =>
    match m key with
    | some subs =>
      if valLen ≤ maxValSize then
        st = .ok ∧ notified = subs.map fun sub => ⟨sub.notify, val, valLen, sub.arg⟩
      else st = .err ∧ notified = []
    | none => notified = []
  | .del key => (st = .ok ↔ (m key).isSome) ∧ notified = []
  | .subscribe key sub => (st = .ok ↔ (m key).isSome ∧ sub.notify ≠ 0) ∧ notified = []
  | .unsubscribe key sub =>
    (st = .ok ↔ ∃ subs, m key = some subs ∧ sub ∈ subs ∧ sub.notify ≠ 0) ∧ notified = []

variable {m m' : SubMap} {keySize : ℕ}

theorem after_of_ne_ok {call : KvWrite} {st : NosStatus} (h : st ≠ .ok) : m.after (call, st) = m :=
  if_neg h

theorem after_ok (call : KvWrite) :
    m.after (call, .ok) = Function.update m call.key (change (m call.key) call) :=
  if_pos rfl

theorem after_of_ne (h : e.1.key = key → e.2 ≠ .ok) : m.after e key = m key := by
  unfold after
  split
  · exact Function.update_of_ne (fun hkey => h hkey.symm ‹_›) _ _
  · rfl

theorem after_self (call : KvWrite) :
    m.after (call, .ok) call.key = change (m call.key) call := by
  rw [after_ok, Function.update_self]

/-- On the keys of one size the map follows the log: its keys are the live ones, and their lists
hold, without duplicates, the pairs that are subscribed. -/
structure Follows (m : SubMap) (keySize : ℕ) (log : List KvReturned) : Prop where
  isSome_iff : ∀ key, key.length = keySize → ((m key).isSome ↔ KeyLive key log)
  nodup : ∀ key, key.length = keySize → ∀ subs, m key = some subs → subs.Nodup
  mem_iff : ∀ key, key.length = keySize → ∀ subs, m key = some subs →
    ∀ sub, sub ∈ subs ↔ Subscribed key sub log

theorem follows_nil (h : ∀ key, key.length = keySize → m key = none) : m.Follows keySize [] := by
  constructor
  · intro key hk
    rw [h key hk]
    exact iff_of_false Bool.false_ne_true not_since_nil
  · intro key hk subs hsubs
    cases (h key hk).symm.trans hsubs
  · intro key hk subs hsubs
    cases (h key hk).symm.trans hsubs

theorem Follows.congr (h : m.Follows keySize log)
    (hm : ∀ key, key.length = keySize → m' key = m key) : m'.Follows keySize log := by
  constructor
  · intro key hk
    rw [hm key hk]
    exact h.isSome_iff key hk
  · intro key hk subs hsubs
    rw [hm key hk] at hsubs
    exact h.nodup key hk subs hsubs
  · intro key hk subs hsubs
    rw [hm key hk] at hsubs
    exact h.mem_iff key hk subs hsubs

/-- A successful call changes the subscribers of its key as the log says. -/
theorem Follows.change (h : m.Follows keySize log) {call : KvWrite}
    (hk : call.key.length = keySize) :
    ((SubMap.change (m call.key) call).isSome ↔ KeyLive call.key ((call, .ok) :: log)) ∧
      ∀ subs, SubMap.change (m call.key) call = some subs → subs.Nodup ∧
        ∀ sub, sub ∈ subs ↔ Subscribed call.key sub ((call, .ok) :: log) := by
  have hlive := h.isSome_iff call.key hk
  have hnodup := h.nodup call.key hk
  have hmem := h.mem_iff call.key hk
  cases call with
  | put key val valLen =>
    have hput : PutOk key (.put key val valLen, .ok) := ⟨val, valLen, rfl⟩
    refine ⟨iff_of_true rfl (keyLive_cons.mpr (Or.inl hput)), fun subs hsubs => ?_⟩
    simp only [KvWrite.key] at hlive hnodup hmem hsubs ⊢
    cases hkey : m key with
    | none =>
      rw [hkey] at hsubs
      obtain rfl := Option.some.inj hsubs
      have hinsert : InsertOk key (.put key val valLen, .ok) log := by
        refine ⟨hput, fun hl => ?_⟩
        simpa [hkey] using hlive.mpr hl
      refine ⟨List.nodup_nil, fun sub => iff_of_false List.not_mem_nil ?_⟩
      rw [subscribed_cons]
      simp [hinsert]
    | some old =>
      rw [hkey] at hsubs
      obtain rfl := Option.some.inj hsubs
      have hkept : ¬ InsertOk key (.put key val valLen, .ok) log := fun hi =>
        hi.2 (hlive.mp (by simp [hkey]))
      refine ⟨hnodup old hkey, fun sub => (hmem old hkey sub).trans ?_⟩
      rw [subscribed_cons]
      simp [hkept]
  | del key =>
    refine ⟨iff_of_false (by simp [SubMap.change]) ?_, fun subs hsubs => by cases hsubs⟩
    rw [KvWrite.key, keyLive_cons]
    simp [PutOk]
  | subscribe key sub =>
    have hput : ∀ earlier, ¬ InsertOk key (.subscribe key sub, .ok) earlier := by
      simp [InsertOk, PutOk]
    constructor
    · rw [SubMap.change, Option.isSome_map, hlive, KvWrite.key, keyLive_cons]
      simp [PutOk]
    · intro subs hsubs
      obtain ⟨old, hold, rfl⟩ := Option.map_eq_some_iff.mp hsubs
      refine ⟨(hnodup old hold).insert, fun other => ?_⟩
      rw [List.mem_insert_iff, hmem old hold, KvWrite.key, subscribed_cons]
      simp [hput, eq_comm]
  | unsubscribe key sub =>
    have hput : ∀ earlier, ¬ InsertOk key (.unsubscribe key sub, .ok) earlier := by
      simp [InsertOk, PutOk]
    constructor
    · rw [SubMap.change, Option.isSome_map, hlive, KvWrite.key, keyLive_cons]
      simp [PutOk]
    · intro subs hsubs
      obtain ⟨old, hold, rfl⟩ := Option.map_eq_some_iff.mp hsubs
      refine ⟨(hnodup old hold).erase sub, fun other => ?_⟩
      rw [(hnodup old hold).mem_erase_iff, hmem old hold, KvWrite.key, subscribed_cons]
      simp [hput, eq_comm]

theorem Follows.after (h : m.Follows keySize log) (e : KvReturned) :
    (m.after e).Follows keySize (e :: log) := by
  obtain ⟨call, st⟩ := e
  have hcases : ∀ key, (call.key = key → st ≠ .ok) ∨ st = .ok ∧ key = call.key := fun key => by
    by_cases hst : st = .ok <;> by_cases hkey : call.key = key <;> simp [hst, hkey]
  constructor
  · intro key hk
    rcases hcases key with hne | ⟨rfl, rfl⟩
    · rw [after_of_ne hne, keyLive_cons_of_ne hne]
      exact h.isSome_iff key hk
    · rw [after_self]
      exact (h.change hk).1
  · intro key hk subs hsubs
    rcases hcases key with hne | ⟨rfl, rfl⟩
    · rw [after_of_ne hne] at hsubs
      exact h.nodup key hk subs hsubs
    · rw [after_self] at hsubs
      exact ((h.change hk).2 subs hsubs).1
  · intro key hk subs hsubs sub
    rcases hcases key with hne | ⟨rfl, rfl⟩
    · rw [after_of_ne hne] at hsubs
      rw [subscribed_cons_of_ne hne]
      exact h.mem_iff key hk subs hsubs sub
    · rw [after_self] at hsubs
      exact ((h.change hk).2 subs hsubs).2 sub

end SubMap

end GeminiNOS

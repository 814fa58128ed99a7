import GeminiNOS.Kv.SubscriberNodes
import GeminiNOS.Kv.SubscriptionLog

/-! # Subscriptions along a run

The lists that hang off the records of a table follow the log of the calls on it. Records
are recycled; their lists are not.
-/

namespace GeminiNOS

open Foundations

variable {key key' : Bytes} {sub : NosKvSub}

namespace NosKvTable

variable {table table' : NosKvTable} {chain : ℕ → List ℕ} {val : Option Bytes}
  {valLen keySize maxValSize capacity b i : ℕ} {st : NosStatus}
  {notified : List KvNotification}

/-- The list that hangs off the record of a live key. -/
def subscribers (table : NosKvTable) : SubMap := fun key =>
  (table.record key).map fun i => (table.getEntry i).subList

/-- One call with its status and the callbacks that it makes, unless it does not return. -/
def answer (table : NosKvTable) :
    KvWrite → Option (NosStatus × NosKvTable × List KvNotification)
  | .put key val valLen => table.nosKvPut key val valLen
  | .del key => (table.nosKvDel key).map fun r => (r.1, r.2, [])
  | .subscribe key sub => (table.nosKvSubscribe key sub).map fun r => (r.1, r.2, [])
  | .unsubscribe key sub => (table.nosKvUnsubscribe key sub).map fun r => (r.1, r.2, [])

def Unheld (table : NosKvTable) : Prop := ∀ b, (table.buckets b).readers = 0

theorem Inv.record_eq_some_iff (h : table.Inv chain) (hk : key.length = table.keySize) :
    table.record key = some i ↔ ∃ b < table.bucketCount, i ∈ chain b ∧ table.keyAt i = key := by
  constructor
  · intro hr
    obtain ⟨b, -, hb, hi, hkey⟩ := h.of_record hk hr
    exact ⟨b, hb, hi, hkey⟩
  · rintro ⟨b, hb, hi, hkey⟩
    exact h.record_eq_some hk hb hi hkey

theorem Inv.record_lt (h : table.Inv chain) (hk : key.length = table.keySize)
    (hr : table.record key = some i) : i < table.capacity := by
  obtain ⟨b, -, hb, hi, -⟩ := h.of_record hk hr
  exact h.used_lt b hb i hi

theorem Inv.lookup_record (h : table.Inv chain) (hk : key.length = table.keySize)
    (hb : table.bucketOf key = some b) :
    (table.record key = none ∧ table.lookup b key = .absent ∧ ∀ i ∈ chain b, table.keyAt i ≠ key) ∨
      ∃ l₁ i l₂, table.record key = some i ∧ chain b = l₁ ++ i :: l₂ ∧ table.keyAt i = key ∧
        table.lookup b key = .found (l₁.getLastD kvInvalidIdx) i := by
  have hlt := h.geometry.bucketOf_lt hb
  rcases h.lookup hk hlt with ⟨hw, habsent⟩ | ⟨l₁, i, l₂, hc, hi, hw⟩
  · exact Or.inl ⟨h.record_eq_none hk hb habsent, hw, habsent⟩
  · exact Or.inr ⟨l₁, i, l₂, h.record_eq_some hk hlt (by simp [hc]) hi, hc, hi, hw⟩

theorem subscribers_of_record (hr : table.record key = some i) :
    table.subscribers key = some (table.getEntry i).subList := by
  rw [subscribers, hr, Option.map_some]

theorem subscribers_eq_none (hr : table.record key = none) : table.subscribers key = none := by
  rw [subscribers, hr, Option.map_none]

theorem subscribers_congr (hr : table'.record key = table.record key)
    (hsubs : ∀ i, table.record key = some i →
      (table'.getEntry i).subList = (table.getEntry i).subList) :
    table'.subscribers key = table.subscribers key := by
  rw [subscribers, hr, subscribers]
  cases hi : table.record key with
  | none => rfl
  | some i => exact congrArg some (hsubs i hi)

theorem Inv.record_inj (h : table.Inv chain) (hk : key.length = table.keySize)
    (hk' : key'.length = table.keySize) (hr : table.record key = some i)
    (hr' : table.record key' = some i) : key' = key := by
  obtain ⟨-, -, -, -, hkey⟩ := h.of_record hk hr
  obtain ⟨-, -, -, -, hkey'⟩ := h.of_record hk' hr'
  exact hkey'.symm.trans hkey

theorem Inv.subscribers_setSubList (h : table.Inv chain) (hk : key.length = table.keySize)
    (hr : table.record key = some i) (subs : List NosKvSub) (hk' : key'.length = table.keySize) :
    (table.setSubList i subs).subscribers key' =
      Function.update table.subscribers key (some subs) key' := by
  have hrecord : (table.setSubList i subs).record key' = table.record key' := by
    apply Option.ext
    intro j
    have hkey : ∀ j, (table.setSubList i subs).keyAt j = table.keyAt j := fun j => by
      rw [keyAt, getEntry_setSubList]
      rfl
    rw [(h.setSubList i subs).record_eq_some_iff hk', h.record_eq_some_iff hk']
    simp only [hkey]
    rfl
  by_cases hkey : key' = key
  · rw [subscribers, hrecord, hkey, hr, Function.update_self, Option.map_some,
      h.subList_setSubList (h.record_lt hk hr) (h.record_lt hk hr), if_pos rfl]
  · rw [Function.update_of_ne hkey]
    refine subscribers_congr hrecord fun j hj => ?_
    have hne : j ≠ i := by
      rintro rfl
      exact hkey (h.record_inj hk hk' hr hj)
    rw [h.subList_setSubList (h.record_lt hk hr) (h.record_lt hk' hj), if_neg hne]

theorem Inv.subscribers_overwrite (h : table.Inv chain) (hk : key.length = table.keySize)
    (hr : table.record key = some i) (hv : valLen ≤ table.maxValSize)
    (hk' : key'.length = table.keySize) :
    (table.overwrite i val valLen).subscribers key' = table.subscribers key' := by
  obtain ⟨b, -, hb, hi, -⟩ := h.of_record hk hr
  refine subscribers_congr ?_ fun j hj => h.subList_overwrite hb hi (h.record_lt hk' hj)
  apply Option.ext
  intro j
  rw [(h.overwrite hb hi hv).record_eq_some_iff hk', h.record_eq_some_iff hk']
  constructor
  · rintro ⟨b', hb', hj, hkey⟩
    rw [h.keyAt_overwrite hb hi (h.used_lt b' hb' j hj)] at hkey
    exact ⟨b', hb', hj, hkey⟩
  · rintro ⟨b', hb', hj, hkey⟩
    rw [← h.keyAt_overwrite hb hi (h.used_lt b' hb' j hj)] at hkey
    exact ⟨b', hb', hj, hkey⟩

theorem Inv.subscribers_insertNew (h : table.Inv chain) (ht : ¬ table.freeTop < 0)
    (hk : key.length = table.keySize) (hb : table.bucketOf key = some b)
    (habsent : ∀ i ∈ chain b, table.keyAt i ≠ key) (hv : valLen ≤ table.maxValSize)
    (hk' : key'.length = table.keySize) :
    (table.insertNew b key val valLen).subscribers key' =
      Function.update table.subscribers key (some []) key' := by
  have hinv : (table.insertNew b key val valLen).Inv _ := h.insertNew ht hb hk hv habsent
  have hself : (table.insertNew b key val valLen).keyAt table.newIdx = key :=
    h.keyAt_insertNew_self ht hk
  by_cases hkey : key' = key
  · have hr : (table.insertNew b key val valLen).record key = some table.newIdx :=
      hinv.record_eq_some hk (h.geometry.bucketOf_lt hb) (mem_chainInsert.mpr (Or.inr ⟨rfl, rfl⟩))
        hself
    rw [hkey, subscribers_of_record hr, getEntry_insertNew_self, Function.update_self]
  · rw [Function.update_of_ne hkey]
    refine subscribers_congr ?_ fun j hj => ?_
    · apply Option.ext
      intro j
      rw [hinv.record_eq_some_iff hk', h.record_eq_some_iff hk']
      constructor
      · rintro ⟨b', hb', hj, hkey'⟩
        rcases mem_chainInsert.mp hj with hj | ⟨rfl, -⟩
        · exact ⟨b', hb', hj, (h.keyAt_insertNew_of_mem ht hb' hj).symm.trans hkey'⟩
        · exact absurd (hkey'.symm.trans hself) hkey
      · rintro ⟨b', hb', hj, hkey'⟩
        exact ⟨b', hb', mem_chainInsert.mpr (Or.inl hj),
          (h.keyAt_insertNew_of_mem ht hb' hj).trans hkey'⟩
    · obtain ⟨b', -, hb', hmem, -⟩ := h.of_record hk' hj
      rw [h.getEntry_insertNew_of_mem ht hb' hmem]

theorem Inv.subscribers_delete (h : table.Inv chain) {l₁ l₂ : List ℕ} (hb : b < table.bucketCount)
    (hc : chain b = l₁ ++ i :: l₂) (hkey : table.keyAt i = key)
    (hk' : key'.length = table.keySize) :
    (table.delete b (l₁.getLastD kvInvalidIdx) i).subscribers key' =
      Function.update table.subscribers key none key' := by
  have hmem {j b' : ℕ} : j ∈ chainDelete chain b l₁ l₂ b' ↔ j ∈ chain b' ∧ ¬ (j = i ∧ b' = b) :=
    mem_chainDelete hc (h.isChain b hb).nodup
  have hi : i ∈ chain b := by simp [hc]
  have hiff : ∀ j, (table.delete b (l₁.getLastD kvInvalidIdx) i).record key' = some j ↔
      table.record key' = some j ∧ j ≠ i := by
    intro j
    rw [(h.delete hb hc).record_eq_some_iff (hk'.trans keySize_delete.symm),
      h.record_eq_some_iff hk', bucketCount_delete]
    constructor
    · rintro ⟨b', hb', hj, hkey'⟩
      obtain ⟨hj, hne⟩ := hmem.mp hj
      rw [h.keyAt_delete hb hc (h.used_lt b' hb' j hj)] at hkey'
      refine ⟨⟨b', hb', hj, hkey'⟩, ?_⟩
      rintro rfl
      exact hne ⟨rfl, h.chain_eq hb' hb hj hi⟩
    · rintro ⟨⟨b', hb', hj, hkey'⟩, hne⟩
      refine ⟨b', hb', hmem.mpr ⟨hj, fun hc => hne hc.1⟩, ?_⟩
      rw [h.keyAt_delete hb hc (h.used_lt b' hb' j hj), hkey']
  by_cases hsame : key' = key
  · have hr : table.record key' = some i := h.record_eq_some hk' hb hi (hkey.trans hsame.symm)
    have hnone : (table.delete b (l₁.getLastD kvInvalidIdx) i).record key' = none := by
      apply Option.eq_none_iff_forall_ne_some.mpr
      intro j hj
      obtain ⟨hj, hne⟩ := (hiff j).mp hj
      exact hne (Option.some.inj (hj.symm.trans hr))
    rw [subscribers, hnone, hsame, Function.update_self, Option.map_none]
  · have hne : ∀ j, table.record key' = some j → j ≠ i := by
      rintro j hj rfl
      obtain ⟨-, -, -, -, hkey'⟩ := h.of_record hk' hj
      exact hsame (hkey'.symm.trans hkey)
    rw [Function.update_of_ne hsame]
    refine subscribers_congr ?_ fun j hj => ?_
    · apply Option.ext
      intro j
      rw [hiff]
      exact and_iff_left_of_imp (hne j)
    · rw [h.getEntry_delete hb hc (h.record_lt hk' hj)]
      exact if_neg (hne j hj)

/-- What a call answers and does. -/
structure Answered (table : NosKvTable) (call : KvWrite) (st : NosStatus) (table' : NosKvTable)
    (notified : List KvNotification) : Prop where
  answers : table.subscribers.Answers table.maxValSize st notified call
  after_eq : ∀ key, key.length = table.keySize →
    table'.subscribers key = table.subscribers.after (call, st) key
  unheld : table'.Unheld

theorem Unheld.update (h : table.Unheld) {buckets : ℕ → NosKvBucket} {bucket : NosKvBucket}
    (hbuckets : buckets = Function.update table.buckets b bucket)
    (hreaders : bucket.readers = (table.buckets b).readers) (b' : ℕ) :
    (buckets b').readers = 0 := by
  rw [hbuckets, Function.update_apply]
  split
  · rw [hreaders, h b]
  · exact h b'

theorem Unheld.delete (h : table.Unheld) {prev : ℕ} : (table.delete b prev i).Unheld := by
  have hunlink : (table.unlink b prev i).Unheld := by
    unfold NosKvTable.unlink
    split
    · exact h.update rfl rfl
    · exact h
  exact hunlink

theorem Answered.of_failed {call : KvWrite} (hu : table.Unheld) (hst : st ≠ .ok)
    (ha : table.subscribers.Answers table.maxValSize st notified call) :
    table.Answered call st table notified := by
  refine ⟨ha, fun key _ => ?_, hu⟩
  rw [SubMap.after_of_ne_ok hst]

theorem Inv.answered_put (h : table.Inv chain) (hu : table.Unheld)
    (hk : key.length = table.keySize) (hb : table.bucketOf key = some b) :
    ∃ st table' notified, table.nosKvPut key val valLen = some (st, table', notified) ∧
      table.Answered (.put key val valLen) st table' notified := by
  unfold nosKvPut
  by_cases hv : table.maxValSize < valLen
  · rw [if_pos hv]
    refine ⟨_, _, _, rfl, Answered.of_failed hu (by decide) ?_⟩
    rw [SubMap.Answers]
    split
    · rw [if_neg (Nat.not_le.mpr hv)]
      exact ⟨rfl, rfl⟩
    · rfl
  · rw [if_neg hv, hb, Option.bind_some, if_neg (by rw [hu b]; decide)]
    rw [Nat.not_lt] at hv
    rcases h.lookup_record hk hb with ⟨hr, hw, habsent⟩ | ⟨l₁, i, l₂, hr, -, -, hw⟩
    · have hnone := subscribers_eq_none hr
      have hanswers : ∀ st, table.subscribers.Answers table.maxValSize st []
          (.put key val valLen) := by
        intro st
        rw [SubMap.Answers, hnone]
      rw [hw]
      by_cases ht : table.freeTop < 0
      · exact ⟨_, _, _, if_pos ht, Answered.of_failed hu (by decide) (hanswers _)⟩
      · refine ⟨_, _, _, if_neg ht, hanswers _, fun key' hk' => ?_, hu.update rfl rfl⟩
        rw [h.subscribers_insertNew ht hk hb habsent hv hk', SubMap.after_ok, KvWrite.key, hnone]
        rfl
    · have hsome := subscribers_of_record hr
      rw [hw]
      refine ⟨_, _, _, rfl, ?_, fun key' hk' => ?_, hu⟩
      · rw [SubMap.Answers, hsome]
        exact (if_pos hv).mpr ⟨rfl, rfl⟩
      · rw [h.subscribers_overwrite hk hr hv hk', SubMap.after_ok, KvWrite.key, hsome,
          SubMap.change, Option.getD_some, ← hsome, Function.update_eq_self]

theorem Inv.answered_del (h : table.Inv chain) (hu : table.Unheld)
    (hk : key.length = table.keySize) (hb : table.bucketOf key = some b) :
    ∃ st table', table.nosKvDel key = some (st, table') ∧
      table.Answered (.del key) st table' [] := by
  unfold nosKvDel
  rw [hb, Option.bind_some, if_neg (by rw [hu b]; decide)]
  rcases h.lookup_record hk hb with ⟨hr, hw, -⟩ | ⟨l₁, i, l₂, hr, hc, hkey, hw⟩
  · rw [hw]
    refine ⟨_, _, rfl, Answered.of_failed hu (by decide) ⟨?_, rfl⟩⟩
    simp [subscribers_eq_none hr]
  · rw [hw]
    refine ⟨_, _, rfl, ⟨?_, rfl⟩, fun key' hk' => ?_, hu.delete⟩
    · simp [subscribers_of_record hr]
    · rw [h.subscribers_delete (h.geometry.bucketOf_lt hb) hc hkey hk', SubMap.after_ok]
      rfl

theorem Inv.bind_lookup (h : table.Inv chain) (hu : table.Unheld) (hk : key.length = table.keySize)
    (hb : table.bucketOf key = some b) (f : ℕ → Option (NosStatus × NosKvTable)) :
    ((table.bucketOf key).bind fun b =>
      if 0 < (table.buckets b).readers then none
      else
        match table.lookup b key with
        | .endless => none
        | .absent => some (.err, table)
        | .found _ currIdx => f currIdx) =
      (table.record key).elim (some (.err, table)) f := by
  rw [hb, Option.bind_some, if_neg (by rw [hu b]; decide)]
  rcases h.lookup_record hk hb with ⟨hr, hw, -⟩ | ⟨l₁, i, l₂, hr, -, -, hw⟩
  · rw [hw, hr]
    rfl
  · rw [hw, hr]
    rfl

theorem Inv.answered_subscribe (h : table.Inv chain) (hu : table.Unheld)
    (hk : key.length = table.keySize) (hb : table.bucketOf key = some b) :
    ∃ st table', table.nosKvSubscribe key sub = some (st, table') ∧
      table.Answered (.subscribe key sub) st table' [] := by
  by_cases hnull : sub.notify = 0
  · refine ⟨_, _, if_pos hnull, Answered.of_failed hu (by decide) ⟨?_, rfl⟩⟩
    simp [hnull]
  · have hcall : table.nosKvSubscribe key sub = (table.record key).elim (some (.err, table))
        fun i => if sub ∈ (table.getEntry i).subList then some (.ok, table)
          else some (.ok, table.setSubList i (sub :: (table.getEntry i).subList)) :=
      (if_neg hnull).trans (h.bind_lookup hu hk hb _)
    rw [hcall]
    cases hr : table.record key with
    | none =>
      refine ⟨_, _, rfl, Answered.of_failed hu (by decide) ⟨?_, rfl⟩⟩
      simp [subscribers_eq_none hr]
    | some i =>
      have hsome := subscribers_of_record hr
      have hanswers : table.subscribers.Answers table.maxValSize .ok [] (.subscribe key sub) :=
        ⟨by simp [hsome, hnull], rfl⟩
      by_cases hmem : sub ∈ (table.getEntry i).subList
      · refine ⟨_, _, if_pos hmem, hanswers, fun key' hk' => ?_, hu⟩
        rw [SubMap.after_ok, KvWrite.key, hsome, SubMap.change, Option.map_some,
          List.insert_of_mem hmem, ← hsome, Function.update_eq_self]
      · refine ⟨_, _, if_neg hmem, hanswers, fun key' hk' => ?_, hu⟩
        rw [h.subscribers_setSubList hk hr _ hk', SubMap.after_ok, KvWrite.key, hsome,
          SubMap.change, Option.map_some, List.insert_of_not_mem hmem]

theorem Inv.answered_unsubscribe (h : table.Inv chain) (hu : table.Unheld)
    (hk : key.length = table.keySize) (hb : table.bucketOf key = some b) :
    ∃ st table', table.nosKvUnsubscribe key sub = some (st, table') ∧
      table.Answered (.unsubscribe key sub) st table' [] := by
  by_cases hnull : sub.notify = 0
  · refine ⟨_, _, if_pos hnull, Answered.of_failed hu (by decide) ⟨?_, rfl⟩⟩
    simp [hnull]
  · have hcall : table.nosKvUnsubscribe key sub = (table.record key).elim (some (.err, table))
        fun i => if sub ∈ (table.getEntry i).subList
          then some (.ok, table.setSubList i ((table.getEntry i).subList.erase sub))
          else some (.err, table) :=
      (if_neg hnull).trans (h.bind_lookup hu hk hb _)
    rw [hcall]
    cases hr : table.record key with
    | none =>
      refine ⟨_, _, rfl, Answered.of_failed hu (by decide) ⟨?_, rfl⟩⟩
      simp [subscribers_eq_none hr]
    | some i =>
      have hsome := subscribers_of_record hr
      by_cases hmem : sub ∈ (table.getEntry i).subList
      · refine ⟨_, _, if_pos hmem, ⟨?_, rfl⟩, fun key' hk' => ?_, hu⟩
        · simp [hsome, hmem, hnull]
        · rw [h.subscribers_setSubList hk hr _ hk', SubMap.after_ok, KvWrite.key, hsome]
          rfl
      · refine ⟨_, _, if_neg hmem, Answered.of_failed hu (by decide) ⟨?_, rfl⟩⟩
        simp [hsome, hmem]

theorem Inv.answered (h : table.Inv chain) (hu : table.Unheld) (hlt : table.keySize < 2 ^ 31)
    {call : KvWrite} (hk : call.key.length = table.keySize) :
    ∃ st table' notified, table.answer call = some (st, table', notified) ∧
      table.Answered call st table' notified := by
  obtain ⟨b, hb⟩ := bucketOf_of_keySize_lt hlt call.key
  cases call with
  | put key val valLen => exact h.answered_put hu hk hb
  | del key =>
    obtain ⟨st, table', hdel, ha⟩ := h.answered_del hu hk hb
    exact ⟨st, table', [], Option.map_eq_some_iff.mpr ⟨_, hdel, rfl⟩, ha⟩
  | subscribe key sub =>
    obtain ⟨st, table', hsub, ha⟩ := h.answered_subscribe hu hk hb
    exact ⟨st, table', [], Option.map_eq_some_iff.mpr ⟨_, hsub, rfl⟩, ha⟩
  | unsubscribe key sub =>
    obtain ⟨st, table', hsub, ha⟩ := h.answered_unsubscribe hu hk hb
    exact ⟨st, table', [], Option.map_eq_some_iff.mpr ⟨_, hsub, rfl⟩, ha⟩

/-- The table after a call is the one that the call leaves. -/
theorem write_of_answer {call : KvWrite} (h : table.answer call = some (st, table', notified)) :
    table.write call = some table' := by
  cases call with
  | put key val valLen => exact Option.map_eq_some_iff.mpr ⟨_, h, rfl⟩
  | del key =>
    obtain ⟨⟨st', t'⟩, hdel, he⟩ := Option.map_eq_some_iff.mp h
    cases he
    exact Option.map_eq_some_iff.mpr ⟨_, hdel, rfl⟩
  | subscribe key sub =>
    obtain ⟨⟨st', t'⟩, hsub, he⟩ := Option.map_eq_some_iff.mp h
    cases he
    exact Option.map_eq_some_iff.mpr ⟨_, hsub, rfl⟩
  | unsubscribe key sub =>
    obtain ⟨⟨st', t'⟩, hsub, he⟩ := Option.map_eq_some_iff.mp h
    cases he
    exact Option.map_eq_some_iff.mpr ⟨_, hsub, rfl⟩

end NosKvTable

/-- A table with the calls that have returned, the last one first. -/
structure KvRun where
  table : NosKvTable
  log : List KvReturned

namespace KvRun

def start (table : NosKvTable) : KvRun := ⟨table, []⟩

def step (s : KvRun) (call : KvWrite) : Option KvRun :=
  (s.table.answer call).map fun r => ⟨r.2.1, (call, r.1) :: s.log⟩

/-- The list of a key exists if the key is live, and holds, without duplicates, the pairs that are
subscribed. -/
structure HoldsSubscribed (s : KvRun) (key : Bytes) : Prop where
  isSome_iff : (s.table.subscribers key).isSome ↔ KeyLive key s.log
  nodup : ∀ subs, s.table.subscribers key = some subs → subs.Nodup
  mem_iff : ∀ subs, s.table.subscribers key = some subs →
    ∀ sub, sub ∈ subs ↔ Subscribed key sub s.log

/-- Every subscribed pair is called once, with the value and the length, and no other. -/
structure NotifiesEach (s : KvRun) (key : Bytes) (val : Option Bytes) (valLen : ℕ)
    (notified : List KvNotification) : Prop where
  nodup : (notified.map KvNotification.sub).Nodup
  mem_iff : ∀ sub, sub ∈ notified.map KvNotification.sub ↔ Subscribed key sub s.log
  args_eq : ∀ n ∈ notified, n.args = (val, valLen)

def Answers (s : KvRun) (st : NosStatus) (notified : List KvNotification) : KvWrite → Prop
  | .put key val valLen =>
    (KeyLive key s.log → valLen ≤ s.table.maxValSize →
      st = .ok ∧ s.NotifiesEach key val valLen notified) ∧
    (KeyLive key s.log → s.table.maxValSize < valLen → st = .err ∧ notified = []) ∧
    (¬ KeyLive key s.log → notified = [])
  | .del key => st = .ok ↔ KeyLive key s.log
  | .subscribe key sub => st = .ok ↔ KeyLive key s.log ∧ sub.notify ≠ 0
  | .unsubscribe key sub => st = .ok ↔ KeyLive key s.log ∧ Subscribed key sub s.log

/-- The lists are those of the log, and every call returns what the log says. -/
structure KeepsSubscriptions (keySize : ℕ) (s : KvRun) : Prop where
  holds : ∀ key, key.length = keySize → s.HoldsSubscribed key
  answers : ∀ call : KvWrite, call.key.length = keySize → ∃ st table' notified,
    s.table.answer call = some (st, table', notified) ∧ s.Answers st notified call

structure Sound (keySize : ℕ) (s : KvRun) : Prop where
  kept : s.table.Kept keySize
  keySize_lt : keySize < 2 ^ 31
  unheld : s.table.Unheld
  follows : s.table.subscribers.Follows keySize s.log
  not_null : ∀ key sub, (KvWrite.subscribe key sub, NosStatus.ok) ∈ s.log → sub.notify ≠ 0

variable {s s' : KvRun} {keySize : ℕ} {call : KvWrite} {st : NosStatus}
  {notified : List KvNotification}

theorem Sound.answered (h : s.Sound keySize) (hk : call.key.length = keySize) :
    ∃ st table' notified, s.table.answer call = some (st, table', notified) ∧
      s.table.Answered call st table' notified := by
  obtain ⟨hsize, -, chain, hinv⟩ := h.kept
  exact hinv.answered h.unheld (hsize ▸ h.keySize_lt) (hk.trans hsize.symm)

theorem Sound.step (h : s.Sound keySize) (hk : call.key.length = keySize)
    (hs : s.step call = some s') : s'.Sound keySize := by
  obtain ⟨⟨st, table', notified⟩, ha, rfl⟩ := Option.map_eq_some_iff.mp hs
  obtain ⟨st', table'', notified', ha', hanswered⟩ := h.answered hk
  obtain ⟨rfl, rfl, rfl⟩ : st' = st ∧ table'' = table' ∧ notified' = notified := by
    simpa using ha'.symm.trans ha
  have hkept := h.kept.write hk (NosKvTable.write_of_answer ha)
  refine ⟨hkept, h.keySize_lt, hanswered.unheld, ?_, ?_⟩
  · refine (h.follows.after (call, st')).congr fun key hkey => ?_
    exact hanswered.after_eq key (hkey.trans h.kept.1.symm)
  · intro key sub hmem
    rcases List.mem_cons.mp hmem with he | hmem
    · obtain ⟨rfl, rfl⟩ := Prod.mk.inj he
      exact (hanswered.answers.1.mp rfl).2
    · exact h.not_null key sub hmem

theorem Sound.notify_ne_zero (h : s.Sound keySize) (hsub : Subscribed key sub s.log) :
    sub.notify ≠ 0 := by
  obtain ⟨later, e, earlier, hlog, rfl, -⟩ := hsub
  exact h.not_null key sub (hlog ▸ List.mem_append_right later List.mem_cons_self)

theorem notifiesEach_map {subs : List NosKvSub} {val : Option Bytes} {valLen : ℕ}
    (hnodup : subs.Nodup) (hmem : ∀ sub, sub ∈ subs ↔ Subscribed key sub s.log) :
    s.NotifiesEach key val valLen (subs.map fun sub => ⟨sub.notify, val, valLen, sub.arg⟩) := by
  have hsubs : (subs.map fun sub => (⟨sub.notify, val, valLen, sub.arg⟩ : KvNotification)).map
      KvNotification.sub = subs := by
    rw [List.map_map]
    exact List.map_id subs
  refine ⟨hsubs.symm ▸ hnodup, fun sub => ?_, fun n hn => ?_⟩
  · rw [hsubs, hmem]
  · obtain ⟨sub, -, rfl⟩ := List.mem_map.mp hn
    rfl

theorem Sound.answers (h : s.Sound keySize) (hk : call.key.length = keySize)
    (ha : s.table.subscribers.Answers s.table.maxValSize st notified call) :
    s.Answers st notified call := by
  have hlive := h.follows.isSome_iff call.key hk
  have hnodup := h.follows.nodup call.key hk
  have hmem := h.follows.mem_iff call.key hk
  cases call with
  | put key val valLen =>
    simp only [KvWrite.key] at hlive hnodup hmem
    rw [SubMap.Answers] at ha
    cases hkey : s.table.subscribers key with
    | none =>
      have hdead : ¬ KeyLive key s.log := fun hl => by simpa [hkey] using hlive.mpr hl
      rw [hkey] at ha
      exact ⟨fun hl => absurd hl hdead, fun hl => absurd hl hdead, fun _ => ha⟩
    | some subs =>
      have hl : KeyLive key s.log := hlive.mp (by simp [hkey])
      simp only [hkey] at ha
      refine ⟨fun _ hv => ?_, fun _ hv => ?_, fun hdead => absurd hl hdead⟩
      · rw [if_pos hv] at ha
        obtain ⟨rfl, rfl⟩ := ha
        exact ⟨rfl, notifiesEach_map (hnodup subs hkey) (hmem subs hkey)⟩
      · rwa [if_neg (Nat.not_le.mpr hv)] at ha
  | del key => exact ha.1.trans hlive
  | subscribe key sub => exact ha.1.trans (and_congr_left' hlive)
  | unsubscribe key sub =>
    refine ha.1.trans ?_
    constructor
    · rintro ⟨subs, hkey, hsub, -⟩
      exact ⟨hlive.mp (Option.isSome_of_eq_some hkey), (hmem subs hkey sub).mp hsub⟩
    · rintro ⟨hl, hsub⟩
      obtain ⟨subs, hkey⟩ := Option.isSome_iff_exists.mp (hlive.mpr hl)
      exact ⟨subs, hkey, (hmem subs hkey sub).mpr hsub, h.notify_ne_zero hsub⟩

theorem Sound.keepsSubscriptions (h : s.Sound keySize) : s.KeepsSubscriptions keySize := by
  constructor
  · intro key hk
    exact ⟨h.follows.isSome_iff key hk, h.follows.nodup key hk, h.follows.mem_iff key hk⟩
  · intro call hk
    obtain ⟨st, table', notified, ha, hanswered⟩ := h.answered hk
    exact ⟨st, table', notified, ha, h.answers hk hanswered.answers⟩

theorem sound_start {name : Bytes} {maxValSize capacity : ℕ} {table : NosKvTable}
    (hc : 0 < capacity) (hfit : RecordsFit keySize maxValSize capacity) (hlt : keySize < 2 ^ 31)
    (h : newTable name keySize maxValSize capacity = some table) :
    (start table).Sound keySize := by
  have hinv : table.Inv _ := NosKvTable.inv_newTable_of_recordsFit hc hfit h
  have hkept := NosKvTable.kept_newTable_of_recordsFit hc hfit h
  refine ⟨hkept, hlt, ?_, SubMap.follows_nil fun key hk => ?_, fun _ _ hmem => ?_⟩
  · obtain ⟨bucketCount, -, rfl⟩ := Option.map_eq_some_iff.mp h
    exact fun b => rfl
  · have hnone : table.record key = none := by
      apply Option.eq_none_iff_forall_ne_some.mpr
      intro i hr
      obtain ⟨-, -, -, hmem, -⟩ := hinv.of_record (hk.trans hkept.1.symm) hr
      exact List.not_mem_nil hmem
    show (table.record key).map _ = none
    rw [hnone, Option.map_none]
  · exact absurd hmem List.not_mem_nil

/-- In every state that a run on a new table visits, the lists hold the subscribed pairs, and every
call returns and answers accordingly. -/
theorem always_keepsSubscriptions {tables : List NosKvTable} {name : Bytes}
    {maxValSize capacity : ℕ} {memory : Bool} {table : NosKvTable} {calls : List KvWrite}
    (h : nosKvTableCreate tables name keySize maxValSize capacity memory =
      some (tables ++ [table], some tables.length))
    (hfit : RecordsFit keySize maxValSize capacity) (hlt : keySize < 2 ^ 31)
    (hkeys : ∀ call ∈ calls, call.key.length = keySize) :
    Run.Always step (KeepsSubscriptions keySize) (start table) calls := by
  obtain ⟨hc, hnew⟩ := NosKvTable.newTable_of_create h
  exact Run.always_of_guarded (fun _ _ _ hsound hk hs => hsound.step hk hs)
    (fun _ hsound => hsound.keepsSubscriptions) (sound_start hc hfit hlt hnew)
    (Run.guarded_of_forall hkeys)

/-- A key is subscribed, deleted and put again, and its record comes back without subscribers. -/
theorem always_keepsSubscriptions_small_table : ∃ table,
    nosKvTableCreate [] [107, 118] 1 8 2 true = some ([] ++ [table], some 0) ∧
      Run.Always step (KeepsSubscriptions 1) (start table)
        [.put [1] (some [7]) 1, .subscribe [1] ⟨1, 5⟩, .put [1] (some [8]) 1, .del [1],
          .put [2] (some [9]) 1, .unsubscribe [2] ⟨1, 5⟩] := by
  have hcreate : nosKvTableCreate [] [107, 118] 1 8 2 true =
      some ([] ++ [(newTable [107, 118] 1 8 2).get rfl], some ([] : List NosKvTable).length) := rfl
  refine ⟨_, hcreate, always_keepsSubscriptions hcreate (by decide) (by decide) ?_⟩
  simp [KvWrite.key]

/-- A put of nine bytes is refused by a table for eight, and the subscriber of the live key is not
called; a subscription without a callback is refused as well. -/
theorem refused_on_live_key : ∃ table s,
    nosKvTableCreate [] [107, 118] 1 8 2 true = some ([] ++ [table], some 0) ∧
      Run.exec step (start table) [.put [1] (some [7]) 1, .subscribe [1] ⟨1, 5⟩] = some s ∧
        KeyLive [1] s.log ∧ Subscribed [1] ⟨1, 5⟩ s.log ∧
          s.table.nosKvPut [1] (some (List.replicate 9 0)) 9 = some (.err, s.table, []) ∧
            s.table.nosKvSubscribe [1] ⟨0, 5⟩ = some (.err, s.table) := by
  have hcreate : nosKvTableCreate [] [107, 118] 1 8 2 true =
      some ([] ++ [(newTable [107, 118] 1 8 2).get rfl], some ([] : List NosKvTable).length) := rfl
  refine ⟨_, _, hcreate, rfl, ?_, ?_, rfl, rfl⟩
  · exact keyLive_cons.mpr (Or.inr ⟨by simp, keyLive_cons.mpr (Or.inl ⟨_, _, rfl⟩)⟩)
  · exact subscribed_cons.mpr (Or.inl rfl)

end KvRun

end GeminiNOS

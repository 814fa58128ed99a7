import GeminiNOS.Foundations.ByteBlocks
import GeminiNOS.Kv.Subscriptions

/-! # The tables of two models

Instances of model 2 count the messages that they handle. Each count goes to a table
of the KV database under the name of the component, and an instance that is loaded
later begins with what it finds there. Instances of model 1 subscribe to the count of
`Comp-2`.
-/

namespace GeminiNOS

open Foundations

/-- The bytes of an `int` that is not negative. -/
def intBytes (n : ℕ) : Bytes := [n, n / 2 ^ 8, n / 2 ^ 16, n / 2 ^ 24].map UInt8.ofNat

/-- The bytes of `"CompStates"`. -/
def compStates : Bytes := [67, 111, 109, 112, 83, 116, 97, 116, 101, 115]

/-- The bytes of `"TestData"`. -/
def testData : Bytes := [84, 101, 115, 116, 68, 97, 116, 97]

/-- The bytes of `"Comp-2"`. -/
def comp2 : Bytes := [67, 111, 109, 112, 45, 50]

/-- `char key[32] = {0}; strncpy(key, self->name, 31);` -/
def stateKey (name : Bytes) : Bytes :=
  name.take 31 ++ List.replicate (32 - (name.take 31).length) 0

/-- The context `comp_ctx_t` of model 2. A table that could not be opened is `none`. -/
structure Model2Ctx where
  stateTable : Option ℕ
  testTable : Option ℕ
  localCounter : ℕ

/-- A put by `nos_kv_put_auto`, whose status nobody reads, with the callbacks that it makes. -/
def putAuto (tables : List NosKvTable) (table : Option ℕ) (key val : Bytes) :
    Option (List NosKvTable × List KvNotification) :=
  table.elim (some (tables, [])) fun i =>
    tables[i]?.bind fun t =>
      (t.nosKvPut key (some val) val.length).map fun r => (tables.set i r.2.1, r.2.2)

/-- `comp_init`, with the memory for the context: the tables are opened, and the counter is read or
written for the first time. -/
def compInit (tables : List NosKvTable) (name : Bytes) (stateMemory testMemory : Bool) :
    Option (List NosKvTable × Model2Ctx × List KvNotification) :=
  (nosKvTableCreate tables compStates 32 4 128 stateMemory).bind fun state =>
    (nosKvTableCreate state.1 testData 4 4 1024 testMemory).bind fun test =>
      state.2.elim (some (test.1, ⟨none, test.2, 0⟩, [])) fun i =>
        test.1[i]?.bind fun t =>
          (t.nosKvGet (stateKey name) 4).bind fun r =>
            if r.1 = .ok then
              some (test.1, ⟨some i, test.2, leNat (memcpyAt (intBytes 0) 0 r.2.1)⟩, [])
            else
              (putAuto test.1 (some i) (stateKey name) (intBytes 0)).map fun put =>
                (put.1, ⟨some i, test.2, 0⟩, put.2)

/-- `comp_on_msg`. The increment of the largest `int` is undefined. -/
def compOnMsg (tables : List NosKvTable) (name : Bytes) (ctx : Model2Ctx) :
    Option (List NosKvTable × Model2Ctx × List KvNotification) :=
  let counter := ctx.localCounter + 1
  if 2 ^ 31 ≤ counter then none
  else
    (putAuto tables ctx.stateTable (stateKey name) (intBytes counter)).bind fun put =>
      (putAuto put.1 ctx.testTable (intBytes counter) (intBytes counter)).map fun put' =>
        (put'.1, { ctx with localCounter := counter }, put.2 ++ put'.2)

/-- The address of `on_comp2_state_change`. -/
def onComp2StateChangePtr : ℕ := 1

/-- The context `comp_ctx_t` of model 1 without its timer, and whether its subscription has
succeeded. Beside them the number of messages that `Comp-2` had handled by then, and the counters
logged since. -/
structure Model1Ctx where
  comp2StateTable : Option ℕ
  subscribed : Bool
  since : ℕ
  detected : List ℕ

def model1Sub (self : ℕ) : NosKvSub := ⟨onComp2StateChangePtr, self⟩

/-- `comp_start`: the table of states is opened, and `Comp-2` subscribed to. -/
def model1Start (tables : List NosKvTable) (self : ℕ) (memory : Bool) :
    Option (List NosKvTable × Option ℕ × NosStatus) :=
  (nosKvTableCreate tables compStates 32 4 128 memory).bind fun r =>
    r.2.elim (some (r.1, none, .err)) fun i =>
      r.1[i]?.bind fun t =>
        (t.nosKvSubscribe (stateKey comp2) (model1Sub self)).map fun sub =>
          (r.1.set i sub.2, some i, sub.1)

/-- `comp_stop` -/
def model1Stop (tables : List NosKvTable) (self : ℕ) (ctx : Model1Ctx) :
    Option (List NosKvTable) :=
  ctx.comp2StateTable.elim (some tables) fun i =>
    tables[i]?.bind fun t =>
      (t.nosKvUnsubscribe (stateKey comp2) (model1Sub self)).map fun sub => tables.set i sub.2

/-- `on_comp2_state_change` -/
def onComp2StateChange (ctx : Model1Ctx) (n : KvNotification) : Model1Ctx :=
  if n.valLen = 4 then { ctx with detected := ctx.detected ++ (n.val.map leNat).toList } else ctx

/-- The callbacks of a put. One to an instance that is gone is undefined. -/
def notifyAll (watch : ℕ → Option Model1Ctx) :
    List KvNotification → Option (ℕ → Option Model1Ctx)
  | [] => some watch
  | n :: ns =>
    if n.notify = onComp2StateChangePtr then
      (watch n.arg).bind fun ctx =>
        notifyAll (Function.update watch n.arg (some (onComp2StateChange ctx n))) ns
    else none

theorem length_intBytes (n : ℕ) : (intBytes n).length = 4 := rfl

theorem leNat_intBytes {n : ℕ} (h : n < 2 ^ 31) : leNat (intBytes n) = n := by
  simp only [leNat, intBytes, List.map_cons, List.map_nil, UInt8.toNat_ofNat', Nat.ofDigits_cons,
    Nat.ofDigits_nil]
  push_cast
  omega

theorem memcpyAt_intBytes (m n : ℕ) : memcpyAt (intBytes m) 0 (intBytes n) = intBytes n := rfl

theorem length_stateKey (name : Bytes) : (stateKey name).length = 32 := by
  rw [stateKey, List.length_append, List.length_replicate]
  have := List.length_take_le 31 name
  omega

theorem model1Sub_notify_ne_zero (self : ℕ) : (model1Sub self).notify ≠ 0 := Nat.one_ne_zero

namespace SubMap

variable {subs : SubMap} {key key' : Bytes} {val : Option Bytes} {maxValSize n : ℕ}
  {st : NosStatus} {notified : List KvNotification} {sub : NosKvSub}

def list (subs : SubMap) (key : Bytes) : List NosKvSub := (subs key).getD []

theorem list_after_put : (subs.after (.put key val n, st)).list key' = subs.list key' := by
  by_cases hst : st = .ok
  · subst hst
    rw [list, after_ok, Function.update_apply]
    split
    · subst key'
      rfl
    · rfl
  · rw [after_of_ne_ok hst]

theorem after_congr {m m' : SubMap} {e : KvReturned} (he : m e.1.key = m' e.1.key)
    (hkey : m key = m' key) : m.after e key = m'.after e key := by
  unfold after
  split
  · rw [Function.update_apply, Function.update_apply, he, hkey]
  · exact hkey

theorem answers_congr {m m' : SubMap} {call : KvWrite} (h : m call.key = m' call.key)
    (ha : m.Answers maxValSize st notified call) : m'.Answers maxValSize st notified call := by
  cases call <;> simp only [KvWrite.key] at h <;> simpa only [Answers, h] using ha

theorem Answers.notified_eq (h : subs.Answers maxValSize st notified (.put key val n))
    (hn : n ≤ maxValSize) :
    notified = (subs.list key).map fun sub => ⟨sub.notify, val, n, sub.arg⟩ := by
  rw [Answers] at h
  rw [list]
  split at h <;> rename_i hkey <;> rw [hkey]
  · rw [if_pos hn] at h
    exact h.2
  · exact h

theorem list_after_subscribe (h : (subs key).isSome) :
    (subs.after (.subscribe key sub, .ok)).list key' =
      if key' = key then (subs.list key).insert sub else subs.list key' := by
  obtain ⟨l, hl⟩ := Option.isSome_iff_exists.mp h
  rw [list, after_ok, KvWrite.key, Function.update_apply]
  split
  · simp [change, hl, list]
  · rfl

theorem list_after_unsubscribe :
    (subs.after (.unsubscribe key sub, .ok)).list key' =
      if key' = key then (subs.list key).erase sub else subs.list key' := by
  rw [list, after_ok, KvWrite.key, Function.update_apply]
  split
  · cases hl : subs key <;> simp [change, hl, list]
  · rfl

end SubMap

namespace NosKvTable

variable {table table' : NosKvTable} {name key val : Bytes} {v : Option Bytes} {sub : NosKvSub}
  {keySize maxValSize capacity n i : ℕ} {st : NosStatus} {notified : List KvNotification}
  {m : BoundedMap Bytes Bytes capacity} {subs : SubMap} {chain : ℕ → List ℕ}

theorem nosKvPut_frame (h : table.nosKvPut key v n = some (st, table', notified)) :
    table'.name = table.name ∧ table'.maxValSize = table.maxValSize := by
  unfold nosKvPut at h
  split at h
  · cases h
    exact ⟨rfl, rfl⟩
  · obtain ⟨b, -, h⟩ := Option.bind_eq_some_iff.mp h
    split at h
    · cases h
    · split at h
      · cases h
      · cases h
        exact ⟨rfl, rfl⟩
      · split at h <;> cases h <;> exact ⟨rfl, rfl⟩

theorem Represents.setSubList (h : table.Represents keySize chain m) (i : ℕ)
    (l : List NosKvSub) : (table.setSubList i l).Represents keySize chain m := by
  refine ⟨h.inv.setSubList i l, fun key val => ?_, h.card_eq, h.keySize_eq, h.keySize_lt⟩
  have hkey : ∀ j, (table.setSubList i l).keyAt j = table.keyAt j := fun j =>
    keyAt_congr rfl (by rw [getEntry_setSubList])
  have hvalue : ∀ j, (table.setSubList i l).valueAt j = table.valueAt j := fun j =>
    valueAt_congr rfl (by rw [getEntry_setSubList]) (by rw [getEntry_setSubList])
  rw [h.find_iff]
  simp only [Stores, hkey, hvalue]
  rfl

theorem Represents.isSome_subscribers (h : table.Represents keySize chain m)
    (hk : key.length = table.keySize) :
    (table.subscribers key).isSome ↔ (m.find key).isSome := by
  obtain ⟨b, hb⟩ := h.exists_bucketOf key
  rcases h.lookup hk hb with ⟨hw, hfind, -⟩ | ⟨_, _, _, -, -, hw, hfind⟩ <;>
    rcases h.inv.lookup_record hk hb with ⟨hr, hw', -⟩ | ⟨_, _, _, hr, -, -, hw'⟩
  · rw [subscribers_eq_none hr, hfind]
    rfl
  · cases hw.symm.trans hw'
  · cases hw.symm.trans hw'
  · rw [subscribers_of_record hr, hfind]
    exact iff_of_true rfl rfl

/-- A table of a name that stores a map and lists of subscribers, and that nobody holds a bucket
of. -/
structure Keeps (table : NosKvTable) (name : Bytes) (keySize maxValSize : ℕ)
    (m : BoundedMap Bytes Bytes capacity) (subs : SubMap) : Prop where
  name_eq : table.name = name
  maxValSize_eq : table.maxValSize = maxValSize
  unheld : table.Unheld
  represents : ∃ chain, table.Represents keySize chain m
  subs_eq : ∀ key, key.length = keySize → table.subscribers key = subs key

theorem Keeps.isSome_iff (h : table.Keeps name keySize maxValSize m subs)
    (hk : key.length = keySize) : (subs key).isSome ↔ (m.find key).isSome := by
  obtain ⟨chain, hr⟩ := h.represents
  rw [← h.subs_eq key hk]
  exact hr.isSome_subscribers (hk.trans hr.keySize_eq.symm)

theorem Keeps.answer (h : table.Keeps name keySize maxValSize m subs) (call : KvWrite)
    (hk : call.key.length = keySize) : ∃ st table' notified,
    table.answer call = some (st, table', notified) ∧
      subs.Answers maxValSize st notified call ∧ table'.Unheld ∧
      ∀ key, key.length = keySize → table'.subscribers key = subs.after (call, st) key := by
  obtain ⟨chain, hr⟩ := h.represents
  have hsize := hr.keySize_eq
  obtain ⟨st, table', notified, hcall, hanswered⟩ :=
    hr.inv.answered h.unheld (hsize ▸ hr.keySize_lt) (hk.trans hsize.symm)
  refine ⟨st, table', notified, hcall, ?_, hanswered.unheld, fun key hkey => ?_⟩
  · rw [← h.maxValSize_eq]
    exact SubMap.answers_congr (h.subs_eq _ hk) hanswered.answers
  · rw [hanswered.after_eq key (hkey.trans hsize.symm)]
    exact SubMap.after_congr (h.subs_eq _ hk) (h.subs_eq key hkey)

theorem Keeps.put_call (h : table.Keeps name keySize maxValSize m subs)
    (hk : key.length = keySize) (val : Bytes) : ∃ st table' notified,
    table.nosKvPut key (some val) val.length = some (st, table', notified) ∧
      subs.Answers maxValSize st notified (.put key (some val) val.length) ∧
      table'.Keeps name keySize maxValSize (mapStep maxValSize m (.put key val)).2
        (subs.after (.put key (some val) val.length, st)) := by
  obtain ⟨chain, hr⟩ := h.represents
  obtain ⟨st, table', notified, hput, hanswers, hunheld, hafter⟩ :=
    h.answer (.put key (some val) val.length) hk
  obtain ⟨table'', chain', hstep, hr'⟩ :=
    hr.step_put (hk.trans hr.keySize_eq.symm)
      (fun _ b _ => h.unheld b : table.Ready (.put key val))
  change table.nosKvPut key (some val) val.length = _ at hput
  rw [kvStep, hput, Option.map_some] at hstep
  obtain ⟨-, rfl⟩ := Prod.mk.inj (Option.some.inj hstep)
  obtain ⟨hname, hmax⟩ := nosKvPut_frame hput
  refine ⟨st, table', notified, hput, hanswers, hname.trans h.name_eq, hmax.trans h.maxValSize_eq,
    hunheld, ⟨chain', ?_⟩, hafter⟩
  rw [← h.maxValSize_eq]
  exact hr'

theorem Keeps.put (h : table.Keeps name keySize maxValSize m subs) (hk : key.length = keySize)
    (hv : val.length ≤ maxValSize) (hroom : (m.find key).isSome ∨ ¬ m.Full) :
    ∃ st table' notified, table.nosKvPut key (some val) val.length = some (st, table', notified) ∧
      notified = (subs.list key).map
        (fun sub => ⟨sub.notify, some val, val.length, sub.arg⟩) ∧
      table'.Keeps name keySize maxValSize (m.set key val hroom)
        (subs.after (.put key (some val) val.length, st)) := by
  have hset : (mapStep maxValSize m (.put key val)).2 = m.set key val hroom := by
    rw [mapStep, if_neg (Nat.not_lt.mpr hv)]
    split
    · rfl
    · rename_i hlive
      rw [dif_neg (hroom.resolve_left hlive)]
  obtain ⟨st, table', notified, hput, hanswers, hkeeps⟩ := h.put_call hk val
  rw [hset] at hkeeps
  exact ⟨st, table', notified, hput, hanswers.notified_eq hv, hkeeps⟩

theorem Keeps.get (h : table.Keeps name keySize maxValSize m subs) (hk : key.length = keySize) :
    table.nosKvGet key n = some ((m.find key).elim (.err, [], n) fun v =>
      (.ok, v.take (min n v.length), v.length)) := by
  obtain ⟨chain, hr⟩ := h.represents
  obtain ⟨table', chain', hstep, -⟩ : ∃ table' chain', table.kvStep (.get key n) = _ ∧ _ :=
    hr.step_get (hk.trans hr.keySize_eq.symm)
  simp only [kvStep] at hstep
  obtain ⟨⟨st, bytes, len⟩, hget, he⟩ := Option.map_eq_some_iff.mp hstep
  rw [hget]
  cases hfind : m.find key <;> rw [mapStep, hfind] at he <;> cases he <;> rfl

theorem Keeps.subscribe (h : table.Keeps name keySize maxValSize m subs)
    (hk : key.length = keySize) (hsub : sub.notify ≠ 0) : ∃ st table',
    table.nosKvSubscribe key sub = some (st, table') ∧ (st = .ok ↔ (m.find key).isSome) ∧
      table'.Keeps name keySize maxValSize m (subs.after (.subscribe key sub, st)) := by
  obtain ⟨chain, hr⟩ := h.represents
  obtain ⟨st, table', notified, hcall, ⟨hst, -⟩, hunheld, hafter⟩ :=
    h.answer (.subscribe key sub) hk
  obtain ⟨⟨_, _⟩, hsubscribe, he⟩ := Option.map_eq_some_iff.mp hcall
  obtain ⟨rfl, rfl, -⟩ : _ = st ∧ _ = table' ∧ _ := by simpa using he
  refine ⟨_, _, hsubscribe, ?_, ?_⟩
  · rw [hst, and_iff_left hsub, h.isSome_iff hk]
  · rcases nosKvSubscribe_cases hsubscribe with rfl | ⟨i, -, rfl⟩
    · exact ⟨h.name_eq, h.maxValSize_eq, hunheld, ⟨chain, hr⟩, hafter⟩
    · exact ⟨h.name_eq, h.maxValSize_eq, hunheld, ⟨chain, hr.setSubList i _⟩, hafter⟩

theorem Keeps.unsubscribe (h : table.Keeps name keySize maxValSize m subs)
    (hk : key.length = keySize) (hsub : sub.notify ≠ 0) : ∃ st table',
    table.nosKvUnsubscribe key sub = some (st, table') ∧
      (st = .ok ↔ sub ∈ subs.list key) ∧
      table'.Keeps name keySize maxValSize m (subs.after (.unsubscribe key sub, st)) := by
  obtain ⟨chain, hr⟩ := h.represents
  obtain ⟨st, table', notified, hcall, ⟨hst, -⟩, hunheld, hafter⟩ :=
    h.answer (.unsubscribe key sub) hk
  obtain ⟨⟨_, _⟩, hunsubscribe, he⟩ := Option.map_eq_some_iff.mp hcall
  obtain ⟨rfl, rfl, -⟩ : _ = st ∧ _ = table' ∧ _ := by simpa using he
  refine ⟨_, _, hunsubscribe, ?_, ?_⟩
  · rw [hst, SubMap.list]
    cases subs key <;> simp [hsub]
  · rcases nosKvUnsubscribe_cases hunsubscribe with rfl | ⟨i, rfl⟩
    · exact ⟨h.name_eq, h.maxValSize_eq, hunheld, ⟨chain, hr⟩, hafter⟩
    · exact ⟨h.name_eq, h.maxValSize_eq, hunheld, ⟨chain, hr.setSubList i _⟩, hafter⟩

theorem keeps_newTable (hc : 0 < capacity)
    (hfit : capacity * (sizeofNosKvEntry + keySize + maxValSize) < 2 ^ 32) (hk : keySize < 2 ^ 31)
    (h : newTable name keySize maxValSize capacity = some table) :
    table.Keeps (name.take 31) keySize maxValSize
      (BoundedMap.empty : BoundedMap Bytes Bytes capacity) fun _ => none := by
  have hr := represents_newTable hc hfit hk h
  have hsound := KvRun.sound_start hc (.of_pool hc hfit) hk h
  have hsubs : ∀ key, key.length = keySize → table.subscribers key = none := fun key hkey =>
    Option.not_isSome_iff_eq_none.mp fun hsome =>
      not_since_nil ((hsound.follows.isSome_iff key hkey).mp hsome)
  obtain ⟨bucketCount, -, rfl⟩ := Option.map_eq_some_iff.mp h
  exact ⟨rfl, rfl, fun _ => rfl, ⟨_, hr⟩, hsubs⟩

end NosKvTable

end GeminiNOS

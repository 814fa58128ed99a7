import GeminiNOS.Foundations.Run
import GeminiNOS.Models.StateTables

/-! # Components that recover and watch a state

Instances of models 1 and 2 come and go. What an instance of model 2 counts outlives it,
and an instance of model 1 that has subscribed to `Comp-2` is called with every count.
-/

namespace GeminiNOS

open Foundations

/-- An instance of model 2 is loaded, with the memory that it may get, is given a message and is
stopped; an instance of model 1 is started at its address, and is stopped. -/
inductive ModelAction where
  | load (name : Bytes) (ctxMemory stateMemory testMemory : Bool)
  | msg (name : Bytes)
  | stop (name : Bytes)
  | watch (self : ℕ) (memory : Bool)
  | unwatch (self : ℕ)

/-- The tables of the database, the contexts of the loaded instances of model 2 by their names, and
those of model 1 by their addresses. Beside them the number of messages that instances of a name
have handled. -/
structure ModelNode where
  tables : List NosKvTable
  priv : Bytes → Option Model2Ctx
  watchers : ℕ → Option Model1Ctx
  handled : Bytes → ℕ

namespace ModelNode

def start : ModelNode := ⟨[], fun _ => none, fun _ => none, fun _ => 0⟩

def step (s : ModelNode) : ModelAction → Option ModelNode
  | .load name ctxMemory stateMemory testMemory =>
    if (s.priv name).isSome then none
    else if ctxMemory then
      (compInit s.tables name stateMemory testMemory).bind fun r =>
        (notifyAll s.watchers r.2.2).map fun watchers =>
          { s with
            tables := r.1
            priv := Function.update s.priv name (some r.2.1)
            watchers := watchers }
    else some s
  | .msg name =>
    (s.priv name).bind fun ctx =>
      (compOnMsg s.tables name ctx).bind fun r =>
        (notifyAll s.watchers r.2.2).map fun watchers =>
          { tables := r.1
            priv := Function.update s.priv name (some r.2.1)
            watchers := watchers
            handled := Function.update s.handled name (s.handled name + 1) }
  | .stop name => some { s with priv := Function.update s.priv name none }
  | .watch self memory =>
    if (s.watchers self).isSome then none
    else
      (model1Start s.tables self memory).map fun r =>
        { s with
          tables := r.1
          watchers := Function.update s.watchers self
            (some ⟨r.2.1, r.2.2 = .ok, s.handled comp2, []⟩) }
  | .unwatch self =>
    (s.watchers self).bind fun ctx =>
      (model1Stop s.tables self ctx).map fun tables =>
        { s with tables := tables, watchers := Function.update s.watchers self none }

/-- Every counter is the number of messages that were handled under the name. What is to be loaded
gets there, and what is loaded takes messages up to the largest `int`. -/
structure Recovered (names : Finset Bytes) (s : ModelNode) : Prop where
  counter : ∀ name ctx, s.priv name = some ctx → ctx.localCounter = s.handled name
  load : ∀ name ∈ names, s.priv name = none → ∀ testMemory, ∃ s' ctx,
    s.step (.load name true true testMemory) = some s' ∧ s'.priv name = some ctx ∧
      ctx.localCounter = s.handled name
  msg : ∀ name, (s.priv name).isSome → s.handled name + 1 < 2 ^ 31 →
    (s.step (.msg name)).isSome

/-- An instance of model 1 that has subscribed has logged every count of `Comp-2` since, in order
and once, and one that has not has logged none. One that starts while `Comp-2` is loaded
subscribes, and one that has started stops. -/
structure Watched (s : ModelNode) : Prop where
  detected : ∀ self ctx, s.watchers self = some ctx → ctx.detected =
    if ctx.subscribed then List.range' (ctx.since + 1) (s.handled comp2 - ctx.since) else []
  watch : ∀ self memory, s.watchers self = none → (s.priv comp2).isSome → ∃ s' ctx,
    s.step (.watch self memory) = some s' ∧ s'.watchers self = some ctx ∧
      ctx.subscribed = true ∧ ctx.since = s.handled comp2
  unwatch : ∀ self, (s.watchers self).isSome → (s.step (.unwatch self)).isSome

end ModelNode

/-- A load is of one of the names, and finds memory for the table of states. -/
def ModelAction.Served (names : Finset Bytes) : ModelAction → Prop
  | load name _ stateMemory _ => name ∈ names ∧ stateMemory = true
  | _ => True

section Watchers

variable {watchers watchers' : ℕ → Option Model1Ctx} {subs : SubMap} {key val : Bytes}
  {l : List NosKvSub} {self n : ℕ} {ctx : Model1Ctx}

/-- The subscribers of the table of states are the instances that have subscribed, and the only key
with subscribers is that of `Comp-2`. -/
structure Watching (watchers : ℕ → Option Model1Ctx) (subs : SubMap) : Prop where
  nodup : ∀ key, key.length = 32 → (subs.list key).Nodup
  mem_iff : ∀ key, key.length = 32 → ∀ sub, sub ∈ subs.list key ↔
    key = stateKey comp2 ∧ sub.notify = onComp2StateChangePtr ∧
      ∃ ctx, watchers sub.arg = some ctx ∧ ctx.subscribed = true
  table : ∀ self ctx, watchers self = some ctx →
    ctx.comp2StateTable = some 0 ∨ ctx.comp2StateTable = none ∧ ctx.subscribed = false

def Detecting (watchers : ℕ → Option Model1Ctx) (handled : ℕ) : Prop :=
  ∀ self ctx, watchers self = some ctx → ctx.since ≤ handled ∧ ctx.detected =
    if ctx.subscribed then List.range' (ctx.since + 1) (handled - ctx.since) else []

/-- The context of an instance after the callbacks to a list of subscribers. -/
def Model1Ctx.called (l : List NosKvSub) (val : Bytes) (self : ℕ) (ctx : Model1Ctx) : Model1Ctx :=
  if model1Sub self ∈ l then { ctx with detected := ctx.detected ++ [leNat val] } else ctx

theorem Model1Ctx.called_subscribed : (ctx.called l val self).subscribed = ctx.subscribed := by
  unfold called
  split <;> rfl

theorem Model1Ctx.called_comp2StateTable :
    (ctx.called l val self).comp2StateTable = ctx.comp2StateTable := by
  unfold called
  split <;> rfl

theorem notifyAll_map (hnodup : l.Nodup) (hlive : ∀ sub ∈ l,
    sub.notify = onComp2StateChangePtr ∧ (watchers sub.arg).isSome) :
    notifyAll watchers (l.map fun sub => ⟨sub.notify, some val, 4, sub.arg⟩) =
      some fun self => (watchers self).map (Model1Ctx.called l val self) := by
  induction l generalizing watchers with
  | nil =>
    rw [List.map_nil, notifyAll]
    congr 1
    funext self
    cases watchers self <;> rfl
  | cons sub l ih =>
    obtain ⟨hnotify, hsome⟩ := hlive sub List.mem_cons_self
    obtain ⟨ctx, hctx⟩ := Option.isSome_iff_exists.mp hsome
    obtain ⟨hnew, hnodup⟩ := List.nodup_cons.mp hnodup
    have hsub : sub = model1Sub sub.arg := by rw [model1Sub, ← hnotify]
    rw [List.map_cons, notifyAll, if_pos hnotify, hctx, Option.bind_some, ih hnodup]
    · congr 1
      funext self
      rw [Function.update_apply]
      split
      · subst self
        rw [hsub] at hnew
        rw [hctx, Option.map_some, Option.map_some, Model1Ctx.called, Model1Ctx.called,
          if_neg hnew, if_pos (by rw [← hsub]; exact List.mem_cons_self)]
        rfl
      · rename_i hne
        have hmem : model1Sub self ∈ sub :: l ↔ model1Sub self ∈ l := by
          rw [List.mem_cons, or_iff_right]
          rintro rfl
          exact hne rfl
        congr 1
        funext ctx
        rw [Model1Ctx.called, Model1Ctx.called]
        simp only [hmem]
    · intro sub' hsub'
      obtain ⟨hnotify', hsome'⟩ := hlive sub' (List.mem_cons_of_mem _ hsub')
      refine ⟨hnotify', ?_⟩
      rw [Function.update_apply]
      split
      · rfl
      · exact hsome'

theorem Watching.notifyAll (h : Watching watchers subs) (hk : key.length = 32) :
    notifyAll watchers ((subs.list key).map fun sub => ⟨sub.notify, some val, 4, sub.arg⟩) =
      some fun self => (watchers self).map (Model1Ctx.called (subs.list key) val self) := by
  refine notifyAll_map (h.nodup key hk) fun sub hsub => ?_
  obtain ⟨-, hnotify, ctx, hctx, -⟩ := (h.mem_iff key hk sub).mp hsub
  exact ⟨hnotify, Option.isSome_of_eq_some hctx⟩

theorem Watching.called (h : Watching watchers subs) :
    Watching (fun self => (watchers self).map (Model1Ctx.called l val self)) subs := by
  refine ⟨h.nodup, fun key hk sub => ?_, fun self ctx hctx => ?_⟩
  · rw [h.mem_iff key hk sub]
    simp only [Option.map_eq_some_iff, exists_exists_and_eq_and, Model1Ctx.called_subscribed]
  · obtain ⟨ctx', hctx', rfl⟩ := Option.map_eq_some_iff.mp hctx
    rw [Model1Ctx.called_subscribed, Model1Ctx.called_comp2StateTable]
    exact h.table self ctx' hctx'

theorem Watching.congr {subs' : SubMap} (h : Watching watchers subs)
    (hlist : ∀ key, subs'.list key = subs.list key) : Watching watchers subs' := by
  refine ⟨fun key hk => ?_, fun key hk sub => ?_, h.table⟩
  · rw [hlist]
    exact h.nodup key hk
  · rw [hlist]
    exact h.mem_iff key hk sub

theorem Watching.model1Sub_mem (h : Watching watchers subs) (hctx : watchers self = some ctx) :
    model1Sub self ∈ subs.list (stateKey comp2) ↔ ctx.subscribed = true := by
  rw [h.mem_iff _ (length_stateKey comp2)]
  constructor
  · rintro ⟨-, -, ctx', hctx', hsubscribed⟩
    obtain rfl := Option.some.inj (hctx.symm.trans hctx')
    exact hsubscribed
  · exact fun hsubscribed => ⟨rfl, rfl, ctx, hctx, hsubscribed⟩

theorem Detecting.called (h : Detecting watchers n) (hw : Watching watchers subs)
    (hn : n + 1 < 2 ^ 31) : Detecting (fun self => (watchers self).map
      (Model1Ctx.called (subs.list (stateKey comp2)) (intBytes (n + 1)) self)) (n + 1) := by
  intro self ctx' hctx'
  obtain ⟨ctx, hctx, rfl⟩ := Option.map_eq_some_iff.mp hctx'
  obtain ⟨hle, hdetected⟩ := h self ctx hctx
  have hsucc : n + 1 - ctx.since = n - ctx.since + 1 := by omega
  have hlast : ctx.since + 1 + (n - ctx.since) = n + 1 := by omega
  unfold Model1Ctx.called
  by_cases hsubscribed : ctx.subscribed = true
  · rw [if_pos ((hw.model1Sub_mem hctx).mpr hsubscribed)]
    dsimp only
    refine ⟨Nat.le_succ_of_le hle, ?_⟩
    rw [hdetected, if_pos hsubscribed, if_pos hsubscribed, hsucc, List.range'_1_concat, hlast,
      leNat_intBytes hn]
  · rw [if_neg (mt (hw.model1Sub_mem hctx).mp hsubscribed)]
    refine ⟨Nat.le_succ_of_le hle, ?_⟩
    rw [hdetected, if_neg hsubscribed, if_neg hsubscribed]

theorem Watching.watch (h : Watching watchers subs) (hnone : watchers self = none)
    {subs' : SubMap} (hctx : ctx.comp2StateTable = some 0 ∨
      ctx.comp2StateTable = none ∧ ctx.subscribed = false)
    (hlist : ∀ key, subs'.list key = if key = stateKey comp2 ∧ ctx.subscribed = true then
      (subs.list key).insert (model1Sub self) else subs.list key) :
    Watching (Function.update watchers self (some ctx)) subs' := by
  have hnotmem : ∀ sub : NosKvSub, sub.arg = self → ∀ key, key.length = 32 →
      sub ∉ subs.list key := by
    rintro sub rfl key hk hmem
    obtain ⟨-, -, ctx', hctx', -⟩ := (h.mem_iff key hk sub).mp hmem
    rw [hnone] at hctx'
    cases hctx'
  refine ⟨fun key hk => ?_, fun key hk sub => ?_, fun self' ctx' hctx' => ?_⟩
  · rw [hlist]
    split
    · exact (h.nodup key hk).insert
    · exact h.nodup key hk
  · rw [hlist, Function.update_apply]
    by_cases harg : sub.arg = self
    · rw [if_pos harg]
      have hsub : sub = model1Sub self ↔ sub.notify = onComp2StateChangePtr := by
        rw [← harg]
        constructor
        · rintro he
          rw [he, model1Sub]
        · rintro he
          rw [model1Sub, ← he]
      split
      · rename_i hnew
        rw [List.mem_insert_iff, or_iff_left (hnotmem sub harg key hk), hsub]
        simp [hnew]
      · rename_i hold
        refine iff_of_false (hnotmem sub harg key hk) ?_
        rintro ⟨hkey, -, ctx', hctx', hsubscribed⟩
        obtain rfl := Option.some.inj hctx'
        exact hold ⟨hkey, hsubscribed⟩
    · rw [if_neg harg, ← h.mem_iff key hk sub]
      split
      · rw [List.mem_insert_iff, or_iff_right]
        rintro rfl
        exact harg rfl
      · rfl
  · rw [Function.update_apply] at hctx'
    split at hctx'
    · obtain rfl := Option.some.inj hctx'
      exact hctx
    · exact h.table self' ctx' hctx'

theorem Watching.unwatch (h : Watching watchers subs) {subs' : SubMap}
    (hlist : ∀ key, key.length = 32 → (subs'.list key).Nodup ∧
      ∀ sub, sub ∈ subs'.list key ↔ sub ≠ model1Sub self ∧ sub ∈ subs.list key) :
    Watching (Function.update watchers self none) subs' := by
  refine ⟨fun key hk => (hlist key hk).1, fun key hk sub => ?_, fun self' ctx' hctx' => ?_⟩
  · rw [(hlist key hk).2, h.mem_iff key hk sub, Function.update_apply]
    by_cases harg : sub.arg = self
    · rw [if_pos harg]
      refine iff_of_false ?_ ?_
      · rintro ⟨hne, -, hnotify, -⟩
        apply hne
        rw [← harg, model1Sub, ← hnotify]
      · rintro ⟨-, -, _, hctx, -⟩
        cases hctx
    · rw [if_neg harg, and_iff_right]
      rintro rfl
      exact harg rfl
  · rw [Function.update_apply] at hctx'
    split at hctx'
    · cases hctx'
    · exact h.table self' ctx' hctx'

theorem Detecting.watch (h : Detecting watchers n)
    (table : Option ℕ) (subscribed : Bool) :
    Detecting (Function.update watchers self (some ⟨table, subscribed, n, []⟩)) n := by
  intro self' ctx hctx
  rw [Function.update_apply] at hctx
  split at hctx
  · obtain rfl := Option.some.inj hctx
    simp
  · exact h self' ctx hctx

theorem Detecting.unwatch (h : Detecting watchers n) :
    Detecting (Function.update watchers self none) n := by
  intro self' ctx hctx
  rw [Function.update_apply] at hctx
  split at hctx
  · cases hctx
  · exact h self' ctx hctx

end Watchers

namespace ModelNode

variable {names : Finset Bytes} {s s' : ModelNode} {state : NosKvTable} {rest : List NosKvTable}
  {m : BoundedMap Bytes Bytes 128} {subs : SubMap} {name : Bytes} {n self : ℕ}
  {actions : List ModelAction}

def TestTable (test : NosKvTable) : Prop :=
  ∃ (m : BoundedMap Bytes Bytes 1024) (subs : SubMap),
    test.Keeps testData 4 4 m subs ∧ ∀ key, subs.list key = []

/-- The table of states holds the count of every name that has been loaded, and the contexts are
those of names whose count is there. -/
structure Opened (names : Finset Bytes) (s : ModelNode) (state : NosKvTable)
    (rest : List NosKvTable) (m : BoundedMap Bytes Bytes 128) (subs : SubMap) : Prop where
  tables : s.tables = state :: rest
  states : state.Keeps compStates 32 4 m subs
  others : rest = [] ∨ ∃ test, rest = [test] ∧ TestTable test
  live : m.live ⊆ names.image stateKey
  small : ∀ name, s.handled name < 2 ^ 31
  stored : ∀ name ∈ names, m.find (stateKey name) = none ∧ s.handled name = 0 ∨
    m.find (stateKey name) = some (intBytes (s.handled name))
  ctx : ∀ name ctx, s.priv name = some ctx → name ∈ names ∧
    (m.find (stateKey name)).isSome ∧ ctx.stateTable = some 0 ∧
    (ctx.testTable = none ∨ ctx.testTable = some 1 ∧ rest ≠ []) ∧
    ctx.localCounter = s.handled name
  watching : Watching s.watchers subs
  detecting : comp2 ∈ names → Detecting s.watchers (s.handled comp2)

/-- No table has been opened yet. -/
structure Unopened (s : ModelNode) : Prop where
  tables : s.tables = []
  priv : ∀ name, s.priv name = none
  handled : ∀ name, s.handled name = 0
  watching : Watching s.watchers fun _ => none
  table : ∀ self ctx, s.watchers self = some ctx → ctx.comp2StateTable = none
  detecting : Detecting s.watchers 0

/-- Nothing has been opened yet, or the tables are there. -/
def Recovers (names : Finset Bytes) (s : ModelNode) : Prop :=
  s.Unopened ∨ ∃ state rest m subs, s.Opened names state rest m subs

theorem Opened.room (h : s.Opened names state rest m subs) (hcard : names.card ≤ 128)
    (hname : name ∈ names) : (m.find (stateKey name)).isSome ∨ ¬ m.Full := by
  by_cases hlive : (m.find (stateKey name)).isSome
  · exact .inl hlive
  · have hkey : stateKey name ∉ m.live := fun hmem => hlive ((m.mem_live _).mp hmem)
    have hlt : m.live.card < (names.image stateKey).card :=
      Finset.card_lt_card ⟨h.live, fun hsub => hkey (hsub (Finset.mem_image_of_mem _ hname))⟩
    have hle : (names.image stateKey).card ≤ names.card := Finset.card_image_le
    unfold BoundedMap.Full
    exact .inr (by omega)

theorem Opened.put (h : s.Opened names state rest m subs) (hcard : names.card ≤ 128)
    (hkeys : Set.InjOn stateKey names) (hname : name ∈ names) (n : ℕ) :
    ∃ state' subs', ∃ m' : BoundedMap Bytes Bytes 128,
      putAuto s.tables (some 0) (stateKey name) (intBytes n) = some (state' :: rest,
        (subs.list (stateKey name)).map fun sub => ⟨sub.notify, some (intBytes n), 4, sub.arg⟩) ∧
      state'.Keeps compStates 32 4 m' subs' ∧ (∀ key, subs'.list key = subs.list key) ∧
      m'.live ⊆ names.image stateKey ∧ m'.find (stateKey name) = some (intBytes n) ∧
      ∀ name' ∈ names, name' ≠ name → m'.find (stateKey name') = m.find (stateKey name') := by
  have hroom := h.room hcard hname
  obtain ⟨st, state', notified, hput, rfl, hkeeps⟩ :=
    h.states.put (length_stateKey name) (length_intBytes n).le hroom
  refine ⟨state', _, m.set _ _ hroom, ?_, hkeeps, fun key => SubMap.list_after_put, ?_, ?_,
    fun name' hname' hne => ?_⟩
  · rw [length_intBytes] at hput
    simp [putAuto, h.tables, hput, length_intBytes]
  · exact Finset.insert_subset (Finset.mem_image_of_mem _ hname) h.live
  · simp [BoundedMap.set]
  · have hkey : stateKey name' ≠ stateKey name := fun he => hne (hkeys hname' hname he)
    simp [BoundedMap.set, hkey]

theorem Opened.create_state (h : s.Opened names state rest m subs) (memory : Bool) :
    nosKvTableCreate s.tables compStates 32 4 128 memory = some (state :: rest, some 0) := by
  have hfind : (state :: rest).findIdx? (fun t => t.name = compStates) = some 0 := by
    rw [List.findIdx?_cons, if_pos (by simpa using h.states.name_eq)]
  rw [h.tables, nosKvTableCreate, if_neg (by decide), hfind]

theorem Recovers.open_state (h : s.Recovers names) : ∃ state rest m subs,
    nosKvTableCreate s.tables compStates 32 4 128 true = some (state :: rest, some 0) ∧
      Opened names { s with tables := state :: rest } state rest m subs := by
  rcases h with h | ⟨state, rest, m, subs, h⟩
  · have hnew : newTable compStates 32 4 128 = some ((newTable compStates 32 4 128).get rfl) := rfl
    refine ⟨(newTable compStates 32 4 128).get rfl, [], .empty, fun _ => none, ?_, ?_⟩
    · rw [h.tables]
      rfl
    · constructor
      · rfl
      · exact NosKvTable.keeps_newTable (by decide) (by decide) (by decide) hnew
      · exact .inl rfl
      · exact Finset.empty_subset _
      · intro name
        rw [h.handled name]
        decide
      · exact fun name _ => .inl ⟨rfl, h.handled name⟩
      · intro name ctx hctx
        rw [h.priv name] at hctx
        cases hctx
      · exact h.watching
      · intro _
        rw [h.handled comp2]
        exact h.detecting
  · exact ⟨state, rest, m, subs, h.create_state true, { h with tables := rfl }⟩

theorem Opened.open_test (h : s.Opened names state rest m subs) (memory : Bool) :
    ∃ rest' testTable, nosKvTableCreate (state :: rest) testData 4 4 1024 memory =
      some (state :: rest', testTable) ∧
      (testTable = none ∨ testTable = some 1 ∧ rest' ≠ []) ∧
      Opened names { s with tables := state :: rest' } state rest' m subs := by
  have hne : ¬ state.name = testData := by
    rw [h.states.name_eq]
    decide
  have hctx (rest' : List NosKvTable) (hrest : rest ≠ [] → rest' ≠ []) :
      ∀ name ctx, s.priv name = some ctx → name ∈ names ∧
        (m.find (stateKey name)).isSome ∧ ctx.stateTable = some 0 ∧
        (ctx.testTable = none ∨ ctx.testTable = some 1 ∧ rest' ≠ []) ∧
        ctx.localCounter = s.handled name := by
    intro name ctx hpriv
    obtain ⟨hname, hsome, hstate, htest, hcounter⟩ := h.ctx name ctx hpriv
    exact ⟨hname, hsome, hstate, htest.imp_right fun ht => ⟨ht.1, hrest ht.2⟩, hcounter⟩
  rcases h.others with rfl | ⟨test, rfl, mt, subsTest, htest, -⟩
  · have hfind : [state].findIdx? (fun t => t.name = testData) = none := by
      simp [List.findIdx?_cons, hne]
    cases memory with
    | false =>
      refine ⟨[], none, ?_, .inl rfl, { h with tables := rfl }⟩
      rw [nosKvTableCreate, if_neg (by decide), hfind]
      rfl
    | true =>
      have hnew : newTable testData 4 4 1024 = some ((newTable testData 4 4 1024).get rfl) := rfl
      refine ⟨[(newTable testData 4 4 1024).get rfl], some 1, ?_, .inr ⟨rfl, by simp⟩,
        { h with
          tables := rfl
          others := .inr ⟨_, rfl, .empty, fun _ => none, ?_, fun _ => rfl⟩
          ctx := hctx [_] fun _ => List.cons_ne_nil _ _ }⟩
      · rw [nosKvTableCreate, if_neg (by decide), hfind]
        rfl
      · exact NosKvTable.keeps_newTable (by decide) (by decide) (by decide) hnew
  · refine ⟨[test], some 1, ?_, .inr ⟨rfl, by simp⟩, { h with tables := rfl }⟩
    have hfind : [state, test].findIdx? (fun t => t.name = testData) = some 1 := by
      simp [List.findIdx?_cons, hne, htest.name_eq]
    rw [nosKvTableCreate, if_neg (by decide), hfind]

theorem Opened.put_test (h : s.Opened names state rest m subs) (state' : NosKvTable) (n : ℕ)
    {testTable : Option ℕ} (ht : testTable = none ∨ testTable = some 1 ∧ rest ≠ []) : ∃ rest',
    putAuto (state' :: rest) testTable (intBytes n) (intBytes n) = some (state' :: rest', []) ∧
      (rest ≠ [] → rest' ≠ []) ∧ (rest' = [] ∨ ∃ test, rest' = [test] ∧ TestTable test) := by
  rcases ht with rfl | ⟨rfl, hne⟩
  · exact ⟨rest, rfl, id, h.others⟩
  · obtain ⟨test, rfl, mt, subsTest, htest, hlist⟩ := h.others.resolve_left hne
    obtain ⟨st, test', notified, hput, hanswers, hkeeps⟩ :=
      htest.put_call (length_intBytes n) (intBytes n)
    obtain rfl : notified = [] := by
      rw [hanswers.notified_eq (length_intBytes n).le, hlist]
      rfl
    refine ⟨[test'], ?_, fun _ => List.cons_ne_nil _ _, .inr ⟨test', rfl, _, _, hkeeps, ?_⟩⟩
    · simp [putAuto, hput]
    · intro key
      rw [SubMap.list_after_put, hlist]

theorem Recovers.load (h : s.Recovers names) (hcard : names.card ≤ 128)
    (hkeys : Set.InjOn stateKey names) (hname : name ∈ names) (hpriv : s.priv name = none)
    (memory : Bool) : ∃ s' ctx, s.step (.load name true true memory) = some s' ∧
      s'.priv name = some ctx ∧ ctx.localCounter = s.handled name ∧ s'.Recovers names := by
  obtain ⟨state, rest, m, subs, hcreate, h⟩ := h.open_state
  obtain ⟨rest', testTable, hcreate', htest, h⟩ := h.open_test memory
  have hget := h.states.get (n := 4) (length_stateKey name)
  rcases h.stored name hname with ⟨hnone, hzero⟩ | hsome
  · rw [hnone] at hget
    obtain ⟨state', subs', m', hput, hkeeps, hlist, hlive, hself, hothers⟩ :=
      h.put hcard hkeys hname 0
    have hnew : subs.list (stateKey name) = [] := by
      have hsubs : subs (stateKey name) = none := by
        rw [← Option.not_isSome_iff_eq_none, h.states.isSome_iff (length_stateKey name), hnone]
        exact Bool.false_ne_true
      rw [SubMap.list, hsubs, Option.getD_none]
    rw [hnew] at hput
    dsimp only at hput hzero
    refine ⟨⟨state' :: rest', Function.update s.priv name (some ⟨some 0, testTable, 0⟩),
      s.watchers, s.handled⟩, ⟨some 0, testTable, 0⟩, ?_, Function.update_self .., hzero.symm,
      .inr ⟨state', rest', m', subs', ?_⟩⟩
    · simp [step, hpriv, compInit, hcreate, hcreate', hget, hput, notifyAll]
    · refine ⟨rfl, hkeeps, h.others, hlive, h.small, fun name' hname' => ?_, fun name' ctx => ?_,
        h.watching.congr hlist, h.detecting⟩
      · by_cases he : name' = name
        · subst he
          exact .inr (hself.trans (by rw [hzero]))
        · rw [hothers name' hname' he]
          exact h.stored name' hname'
      · dsimp only
        rw [Function.update_apply]
        split
        · rename_i he
          rintro ⟨⟩
          rw [he, hself]
          exact ⟨hname, rfl, rfl, htest, hzero.symm⟩
        · rename_i he
          intro hctx
          obtain ⟨hname', hlive', hrest⟩ := h.ctx name' ctx hctx
          rw [hothers name' hname' he]
          exact ⟨hname', hlive', hrest⟩
  · rw [hsome] at hget
    have hcount : leNat (memcpyAt (intBytes 0) 0 (intBytes (s.handled name))) = s.handled name := by
      rw [memcpyAt_intBytes, leNat_intBytes (h.small name)]
    refine ⟨⟨state :: rest', Function.update s.priv name
      (some ⟨some 0, testTable, s.handled name⟩), s.watchers, s.handled⟩,
      ⟨some 0, testTable, s.handled name⟩, ?_, Function.update_self .., rfl,
      .inr ⟨state, rest', m, subs, { h with ctx := ?_ }⟩⟩
    · have htake : (intBytes (s.handled name)).take 4 = intBytes (s.handled name) := rfl
      simp [step, hpriv, compInit, hcreate, hcreate', hget, length_intBytes, htake, hcount,
        notifyAll]
    · intro name' ctx
      dsimp only
      rw [Function.update_apply]
      split
      · rename_i he
        rintro ⟨⟩
        rw [he, hsome]
        exact ⟨hname, rfl, rfl, htest, rfl⟩
      · exact h.ctx name' ctx

theorem Recovers.msg (h : s.Recovers names) (hcard : names.card ≤ 128)
    (hkeys : Set.InjOn stateKey names) (hpriv : (s.priv name).isSome)
    (hlt : s.handled name + 1 < 2 ^ 31) :
    ∃ s', s.step (.msg name) = some s' ∧ s'.Recovers names := by
  obtain ⟨ctx, hctx⟩ := Option.isSome_iff_exists.mp hpriv
  rcases h with h | ⟨state, rest, m, subs, h⟩
  · rw [h.priv name] at hctx
    cases hctx
  · obtain ⟨hname, -, hstate, htest, hcounter⟩ := h.ctx name ctx hctx
    obtain ⟨state', subs', m', hput, hkeeps, hlist, hlive, hself, hothers⟩ :=
      h.put hcard hkeys hname (s.handled name + 1)
    obtain ⟨rest', hput', hgrow, hothers'⟩ := h.put_test state' (s.handled name + 1) htest
    refine ⟨⟨state' :: rest', Function.update s.priv name
      (some { ctx with localCounter := s.handled name + 1 }),
      fun self => (s.watchers self).map (Model1Ctx.called (subs.list (stateKey name))
        (intBytes (s.handled name + 1)) self),
      Function.update s.handled name (s.handled name + 1)⟩, ?_,
      .inr ⟨state', rest', m', subs', ?_⟩⟩
    · have hle : ¬ 2 ^ 31 ≤ s.handled name + 1 := Nat.not_le.mpr hlt
      simp only [step, hctx, Option.bind_some, compOnMsg, hcounter, if_neg hle, hstate, hput, hput',
        Option.map_some, List.append_nil, h.watching.notifyAll (length_stateKey name)]
    · refine ⟨rfl, hkeeps, hothers', hlive, fun name' => ?_, fun name' hname' => ?_,
        fun name' ctx' => ?_, h.watching.called.congr hlist, fun hcomp2 => ?_⟩ <;> dsimp only <;>
        simp only [Function.update_apply] <;> split
      · exact hlt
      · exact h.small name'
      · rename_i he
        rw [he]
        exact .inr hself
      · rename_i he
        rw [hothers name' hname' he]
        exact h.stored name' hname'
      · rename_i he
        rintro ⟨⟩
        rw [he, hself]
        exact ⟨hname, rfl, hstate, htest.imp_right fun ht => ⟨ht.1, hgrow ht.2⟩, rfl⟩
      · rename_i he
        intro hctx'
        obtain ⟨hname', hlive', hstate', htest', hcounter'⟩ := h.ctx name' ctx' hctx'
        rw [hothers name' hname' he]
        exact ⟨hname', hlive', hstate', htest'.imp_right fun ht => ⟨ht.1, hgrow ht.2⟩, hcounter'⟩
      · rename_i he
        subst he
        exact (h.detecting hcomp2).called h.watching hlt
      · rename_i he
        have hkey : stateKey name ≠ stateKey comp2 := fun hk => he (hkeys hcomp2 hname hk.symm)
        have hsame : ∀ self ctx, Model1Ctx.called (subs.list (stateKey name))
            (intBytes (s.handled name + 1)) self ctx = ctx := fun self ctx =>
          if_neg fun hmem => hkey ((h.watching.mem_iff _ (length_stateKey name) _).mp hmem).1
        intro self ctx hctx
        obtain ⟨ctx', hctx', rfl⟩ := Option.map_eq_some_iff.mp hctx
        rw [hsame]
        exact h.detecting hcomp2 self ctx' hctx'

theorem Recovers.stop (h : s.Recovers names) (name : Bytes) :
    Recovers names { s with priv := Function.update s.priv name none } := by
  rcases h with h | ⟨state, rest, m, subs, h⟩
  · refine .inl { h with priv := fun name' => ?_ }
    dsimp only
    rw [Function.update_apply, h.priv name', ite_self]
  · refine .inr ⟨state, rest, m, subs, { h with ctx := fun name' ctx => ?_ }⟩
    dsimp only
    rw [Function.update_apply]
    split
    · rintro ⟨⟩
    · exact h.ctx name' ctx

theorem Opened.watch (h : s.Opened names state rest m subs) (hself : s.watchers self = none)
    (memory : Bool) : ∃ s' ctx state' subs', s.step (.watch self memory) = some s' ∧
      s'.watchers self = some ctx ∧ ctx.since = s.handled comp2 ∧
      (ctx.subscribed = true ↔ (m.find (stateKey comp2)).isSome) ∧
      s'.Opened names state' rest m subs' := by
  obtain ⟨st, state', hsubscribe, hst, hkeeps⟩ :=
    h.states.subscribe (length_stateKey comp2) (model1Sub_notify_ne_zero self)
  refine ⟨{ s with
      tables := state' :: rest
      watchers := Function.update s.watchers self
        (some ⟨some 0, st = .ok, s.handled comp2, []⟩) },
    ⟨some 0, st = .ok, s.handled comp2, []⟩, state', _, ?_, Function.update_self .., rfl, ?_,
    { h with
      tables := rfl
      states := hkeeps
      watching := h.watching.watch hself (.inl rfl) fun key => ?_
      detecting := fun hcomp2 => (h.detecting hcomp2).watch _ _ }⟩
  · simp [step, hself, model1Start, h.create_state, hsubscribe]
  · rw [← hst]
    exact decide_eq_true_iff
  · by_cases hok : st = .ok
    · subst hok
      rw [SubMap.list_after_subscribe]
      · by_cases hkey : key = stateKey comp2 <;> simp [hkey]
      · rw [h.states.isSome_iff (length_stateKey comp2), ← hst]
    · rw [SubMap.after_of_ne_ok hok, if_neg]
      simp [hok]

theorem Recovers.watch (h : s.Recovers names) (hself : s.watchers self = none) (memory : Bool)
    (hs : s.step (.watch self memory) = some s') : s'.Recovers names := by
  rcases h with hfirst | ⟨state, rest, m, subs, h⟩
  · cases memory with
    | false =>
      have hcreate : nosKvTableCreate s.tables compStates 32 4 128 false = some ([], none) := by
        rw [hfirst.tables]
        rfl
      obtain rfl : { s with
          tables := []
          watchers := Function.update s.watchers self (some ⟨none, false, 0, []⟩) } = s' := by
        simpa [step, hself, model1Start, hcreate, hfirst.handled] using hs
      refine .inl ⟨rfl, hfirst.priv, hfirst.handled, ?_, fun self' ctx hctx => ?_,
        hfirst.detecting.watch _ _⟩
      · exact hfirst.watching.watch hself (.inr ⟨rfl, rfl⟩) fun key => by simp
      · dsimp only at hctx
        rw [Function.update_apply] at hctx
        split at hctx
        · obtain rfl := Option.some.inj hctx
          rfl
        · exact hfirst.table self' ctx hctx
    | true =>
      have hrecovers : s.Recovers names := .inl hfirst
      obtain ⟨state, rest, m, subs, hcreate, h⟩ := hrecovers.open_state
      obtain ⟨t, ctx, state', subs', ht, -, -, -, h'⟩ := h.watch hself true
      have hcreate' := h.create_state true
      have hstep : s.step (.watch self true) = some t := by
        rw [← ht]
        dsimp only at hcreate'
        simp [step, model1Start, hcreate, hcreate']
      obtain rfl := Option.some.inj (hs.symm.trans hstep)
      exact .inr ⟨state', rest, m, subs', h'⟩
  · obtain ⟨t, ctx, state', subs', ht, -, -, -, h'⟩ := h.watch hself memory
    obtain rfl := Option.some.inj (hs.symm.trans ht)
    exact .inr ⟨state', rest, m, subs', h'⟩

theorem Recovers.unwatch (h : s.Recovers names) (hself : (s.watchers self).isSome) :
    ∃ s', s.step (.unwatch self) = some s' ∧ s'.Recovers names := by
  obtain ⟨ctx, hctx⟩ := Option.isSome_iff_exists.mp hself
  rcases h with h | ⟨state, rest, m, subs, h⟩
  · refine ⟨{ s with watchers := Function.update s.watchers self none }, ?_, .inl ?_⟩
    · simp [step, hctx, model1Stop, h.table self ctx hctx]
    · refine ⟨h.tables, h.priv, h.handled, h.watching.unwatch fun key _ => ?_,
        fun self' ctx' hctx' => ?_, h.detecting.unwatch⟩
      · exact ⟨List.nodup_nil, fun sub =>
          ⟨fun hsub => absurd hsub List.not_mem_nil, fun hsub => absurd hsub.2 List.not_mem_nil⟩⟩
      · dsimp only at hctx'
        rw [Function.update_apply] at hctx'
        split at hctx'
        · cases hctx'
        · exact h.table self' ctx' hctx'
  · rcases h.watching.table self ctx hctx with htable | ⟨htable, hsubscribed⟩
    · obtain ⟨st, state', hunsubscribe, hst, hkeeps⟩ :=
        h.states.unsubscribe (length_stateKey comp2) (model1Sub_notify_ne_zero self)
      refine ⟨{ s with
          tables := state' :: rest
          watchers := Function.update s.watchers self none }, ?_,
        .inr ⟨state', rest, m, _, { h with
          tables := rfl
          states := hkeeps
          watching := h.watching.unwatch fun key hk => ?_
          detecting := fun hcomp2 => (h.detecting hcomp2).unwatch }⟩⟩
      · simp [step, hctx, model1Stop, htable, h.tables, hunsubscribe]
      · have hnodup := h.watching.nodup key hk
        have hother : key ≠ stateKey comp2 → ∀ sub ∈ subs.list key, False := fun hne sub hsub =>
          hne ((h.watching.mem_iff key hk sub).mp hsub).1
        by_cases hok : st = .ok
        · subst hok
          rw [SubMap.list_after_unsubscribe]
          split
          · subst key
            exact ⟨hnodup.erase _, fun sub => hnodup.mem_erase_iff⟩
          · refine ⟨hnodup, fun sub => ⟨fun hsub => (hother ‹_› sub hsub).elim, And.right⟩⟩
        · rw [SubMap.after_of_ne_ok hok]
          refine ⟨hnodup, fun sub => ⟨fun hsub => ⟨?_, hsub⟩, And.right⟩⟩
          rintro rfl
          obtain ⟨rfl, -⟩ := (h.watching.mem_iff key hk _).mp hsub
          exact hok (hst.mpr hsub)
    · refine ⟨{ s with watchers := Function.update s.watchers self none }, ?_,
        .inr ⟨state, rest, m, subs, { h with
          watching := h.watching.unwatch fun key hk => ⟨h.watching.nodup key hk, fun sub => ?_⟩
          detecting := fun hcomp2 => (h.detecting hcomp2).unwatch }⟩⟩
      · simp [step, hctx, model1Stop, htable]
      · refine ⟨fun hsub => ⟨?_, hsub⟩, And.right⟩
        rintro rfl
        obtain ⟨rfl, -⟩ := (h.watching.mem_iff key hk _).mp hsub
        have hmem := (h.watching.model1Sub_mem hctx).mp hsub
        rw [hsubscribed] at hmem
        cases hmem

theorem Recovers.step (h : s.Recovers names) (hcard : names.card ≤ 128)
    (hkeys : Set.InjOn stateKey names) {a : ModelAction} (ha : a.Served names)
    (hs : s.step a = some s') : s'.Recovers names := by
  cases a with
  | load name ctxMemory stateMemory testMemory =>
    obtain ⟨hname, rfl⟩ := ha
    cases hpriv : s.priv name with
    | some ctx => simp [ModelNode.step, hpriv] at hs
    | none =>
      cases ctxMemory with
      | false =>
        obtain rfl : s = s' := by simpa [ModelNode.step, hpriv] using hs
        exact h
      | true =>
        obtain ⟨t, ctx, ht, -, -, h'⟩ := h.load hcard hkeys hname hpriv testMemory
        obtain rfl := Option.some.inj (hs.symm.trans ht)
        exact h'
  | msg name =>
    cases hpriv : s.priv name with
    | none => simp [ModelNode.step, hpriv] at hs
    | some ctx =>
      have hlt : s.handled name + 1 < 2 ^ 31 := by
        rcases h with h | ⟨state, rest, m, subs, h⟩
        · simp [h.priv name] at hpriv
        · obtain ⟨-, -, -, -, hcounter⟩ := h.ctx name ctx hpriv
          simp only [ModelNode.step, hpriv, Option.bind_some, compOnMsg, hcounter] at hs
          split at hs
          · cases hs
          · exact Nat.lt_of_not_le ‹_›
      obtain ⟨t, ht, h'⟩ := h.msg hcard hkeys (by simp [hpriv]) hlt
      obtain rfl := Option.some.inj (hs.symm.trans ht)
      exact h'
  | stop name =>
    cases hs
    exact h.stop name
  | watch self memory =>
    cases hself : s.watchers self with
    | some ctx => simp [ModelNode.step, hself] at hs
    | none => exact h.watch hself memory hs
  | unwatch self =>
    cases hself : s.watchers self with
    | none => simp [ModelNode.step, hself] at hs
    | some ctx =>
      obtain ⟨t, ht, h'⟩ := h.unwatch (by rw [hself]; rfl : (s.watchers self).isSome)
      obtain rfl := Option.some.inj (hs.symm.trans ht)
      exact h'

theorem Recovers.recovered (h : s.Recovers names) (hcard : names.card ≤ 128)
    (hkeys : Set.InjOn stateKey names) : s.Recovered names := by
  constructor
  · intro name ctx hctx
    rcases h with h | ⟨state, rest, m, subs, h⟩
    · rw [h.priv name] at hctx
      cases hctx
    · exact (h.ctx name ctx hctx).2.2.2.2
  · intro name hname hpriv testMemory
    obtain ⟨s', ctx, hs, hctx, hcounter, -⟩ := h.load hcard hkeys hname hpriv testMemory
    exact ⟨s', ctx, hs, hctx, hcounter⟩
  · intro name hpriv hlt
    obtain ⟨s', hs, -⟩ := h.msg hcard hkeys hpriv hlt
    exact Option.isSome_of_eq_some hs

theorem Recovers.watched (h : s.Recovers names) (hcomp2 : comp2 ∈ names) : s.Watched := by
  constructor
  · intro self ctx hctx
    rcases h with h | ⟨state, rest, m, subs, h⟩
    · rw [h.handled comp2]
      exact (h.detecting self ctx hctx).2
    · exact (h.detecting hcomp2 self ctx hctx).2
  · intro self memory hself hpriv
    obtain ⟨ctx, hctx⟩ := Option.isSome_iff_exists.mp hpriv
    rcases h with h | ⟨state, rest, m, subs, h⟩
    · rw [h.priv comp2] at hctx
      cases hctx
    · obtain ⟨s', w, -, -, hs, hw, hsince, hsubscribed, -⟩ := h.watch hself memory
      exact ⟨s', w, hs, hw, hsubscribed.mpr (h.ctx comp2 ctx hctx).2.1, hsince⟩
  · intro self hself
    obtain ⟨s', hs, -⟩ := h.unwatch hself
    exact Option.isSome_of_eq_some hs

theorem recovers_start : start.Recovers names := by
  refine .inl ⟨rfl, fun _ => rfl, fun _ => rfl, ⟨fun _ _ => List.nodup_nil, fun key _ sub => ?_,
    fun _ _ hctx => (by cases hctx)⟩, fun _ _ hctx => (by cases hctx),
    fun _ _ hctx => (by cases hctx)⟩
  refine iff_of_false List.not_mem_nil ?_
  rintro ⟨-, -, _, hctx, -⟩
  cases hctx

/-- In every run of loads, messages and stops, for as many names as the table of states has room
for, an instance counts on from where the last one of its name has stopped, whoever watches. -/
theorem always_recovered (hcard : names.card ≤ 128) (hkeys : Set.InjOn stateKey names)
    (hserved : ∀ a ∈ actions, a.Served names) :
    Run.Always step (fun s => s.Recovered names) start actions := by
  refine Run.always_of_guarded (I := fun s => s.Recovers names) ?_
    (fun s h => h.recovered hcard hkeys) recovers_start (Run.guarded_of_forall hserved)
  exact fun s a s' h ha hs => h.step hcard hkeys ha hs

/-- `Comp-2` is stopped after two messages and loaded again. -/
theorem always_recovered_reload : Run.Always step (fun s => s.Recovered {comp2}) start
    [.load comp2 true true true, .msg comp2, .msg comp2, .stop comp2,
      .load comp2 true true false] :=
  always_recovered (by decide) (by simp) (by simp [ModelAction.Served])

/-- In every such run, an instance of model 1 that has subscribed logs every count of `Comp-2`, in
order and once, across all stops and loads of `Comp-2`. -/
theorem always_watched (hcard : names.card ≤ 128) (hkeys : Set.InjOn stateKey names)
    (hcomp2 : comp2 ∈ names) (hserved : ∀ a ∈ actions, a.Served names) :
    Run.Always step Watched start actions := by
  refine Run.always_of_guarded (I := fun s => s.Recovers names) ?_
    (fun s h => h.watched hcomp2) recovers_start (Run.guarded_of_forall hserved)
  exact fun s a s' h ha hs => h.step hcard hkeys ha hs

/-- An instance of model 1 watches `Comp-2` across a reload. -/
theorem always_watched_reload : Run.Always step Watched start
    [.watch 4096 true, .load comp2 true true true, .watch 8192 true, .msg comp2, .stop comp2,
      .load comp2 true true true, .msg comp2, .unwatch 8192, .msg comp2] :=
  @always_watched {comp2} _ (by decide) (by simp) (by simp) (by simp [ModelAction.Served])

end ModelNode

end GeminiNOS

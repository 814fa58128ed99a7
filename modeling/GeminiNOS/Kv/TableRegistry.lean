import GeminiNOS.Kv.Table
import GeminiNOS.Foundations.Run

/-! # Opening tables by name

`nos_kv_table_create` opens a table whose name is known and creates one
otherwise. A new table stores at most 31 bytes of its name, while an open
compares the whole name; the sizes of a table stay those of its creation.
-/

namespace GeminiNOS

open Foundations

/-- A call of `nos_kv_table_create`, and whether its allocation of a context succeeds. -/
structure KvCreateCall where
  name : Option Bytes
  keySize : ℕ
  maxValSize : ℕ
  capacity : ℕ
  memory : Bool
  deriving DecidableEq, Repr

/-- The registered tables, with the successful calls so far and the tables that they returned. -/
structure KvMgr where
  tables : List NosKvTable
  opened : List (KvCreateCall × ℕ)

namespace KvMgr

def init : KvMgr := ⟨[], []⟩

def record (mgr : KvMgr) (call : KvCreateCall) (tables : List NosKvTable) (result : Option ℕ) :
    KvMgr :=
  ⟨tables, mgr.opened ++ result.toList.map fun i => (call, i)⟩

def step (mgr : KvMgr) (call : KvCreateCall) : Option KvMgr :=
  call.name.elim (some (mgr.record call mgr.tables none)) fun name =>
    (nosKvTableCreate mgr.tables name call.keySize call.maxValSize call.capacity call.memory).map
      fun r => mgr.record call r.1 r.2

/-- Two calls return the same table exactly when their names are equal. -/
def SameTableIff (c c' : KvCreateCall × ℕ) : Prop := c.2 = c'.2 ↔ c.1.name = c'.1.name

/-- Each call returns a table with the key size that it requested, and with room for its values. -/
def SizesGranted (mgr : KvMgr) : Prop :=
  ∀ c ∈ mgr.opened, ∃ table, mgr.tables[c.2]? = some table ∧
    table.keySize = c.1.keySize ∧ c.1.maxValSize ≤ table.maxValSize

/-- The name of a call fits into `name[32]`. -/
def ShortName (call : KvCreateCall) : Prop := ∀ name ∈ call.name, name.length ≤ 31

/-- A table has the sizes that the first call that returned it requested. -/
def SizesOfFirst (mgr : KvMgr) : Prop :=
  ∀ c ∈ mgr.opened, ∃ table first, mgr.tables[c.2]? = some table ∧
    mgr.opened.find? (fun c' => c'.2 = c.2) = some first ∧
    table.keySize = first.1.keySize ∧ table.maxValSize = first.1.maxValSize

variable {mgr mgr' : KvMgr} {call : KvCreateCall} {table : NosKvTable} {tables : List NosKvTable}
  {name : Bytes} {keySize maxValSize capacity i : ℕ} {memory : Bool}

theorem newTable_sizes (h : newTable name keySize maxValSize capacity = some table) :
    table.name = name.take 31 ∧ table.keySize = keySize ∧ table.maxValSize = maxValSize := by
  obtain ⟨bucketCount, -, rfl⟩ := Option.map_eq_some_iff.mp h
  exact ⟨rfl, rfl, rfl⟩

theorem nosKvTableCreate_cases {r : List NosKvTable × Option ℕ}
    (h : nosKvTableCreate tables name keySize maxValSize capacity memory = some r) :
    r = (tables, none) ∨
    (∃ i, r = (tables, some i) ∧ tables.findIdx? (fun t => t.name = name) = some i) ∨
    (tables.findIdx? (fun t => t.name = name) = none ∧ ∃ table,
      r = (tables ++ [table], some tables.length) ∧
      newTable name keySize maxValSize capacity = some table) := by
  rw [nosKvTableCreate] at h
  split at h
  · exact .inl (Option.some.inj h).symm
  split at h <;> rename_i hfind
  · exact .inr (.inl ⟨_, (Option.some.inj h).symm, hfind⟩)
  · split at h
    · exact .inl (Option.some.inj h).symm
    · obtain ⟨table, hnew, rfl⟩ := Option.map_eq_some_iff.mp h
      exact .inr (.inr ⟨hfind, table, rfl, hnew⟩)

/-- A successful call with a short name has got the first table that stores its name, and the sizes
of every table are those of the first call that returned it. -/
structure Inv (mgr : KvMgr) : Prop where
  lt : ∀ c ∈ mgr.opened, c.2 < mgr.tables.length
  name : ∀ c ∈ mgr.opened, ∃ name, c.1.name = some name ∧
    (name.length ≤ 31 → mgr.tables.findIdx? (fun t => t.name = name) = some c.2)
  first : ∀ i table, mgr.tables[i]? = some table → ∃ first,
    mgr.opened.find? (fun c => c.2 = i) = some first ∧
    table.keySize = first.1.keySize ∧ table.maxValSize = first.1.maxValSize

theorem Inv.init : Inv init where
  lt := by simp [KvMgr.init]
  name := by simp [KvMgr.init]
  first := by simp [KvMgr.init]

theorem Inv.fail (h : mgr.Inv) : (mgr.record call mgr.tables none).Inv := by
  simpa [record] using h

theorem find_append_of_some {opened : List (KvCreateCall × ℕ)} {c first : KvCreateCall × ℕ}
    (h : opened.find? (fun c => c.2 = i) = some first) :
    (opened ++ [c]).find? (fun c => c.2 = i) = some first := by
  rw [List.find?_append, h, Option.some_or]

theorem Inv.open (h : mgr.Inv) (hname : call.name = some name)
    (hfind : mgr.tables.findIdx? (fun t => t.name = name) = some i) :
    (mgr.record call mgr.tables (some i)).Inv where
  lt := by
    intro c hc
    rcases List.mem_append.mp hc with hc | hc
    · exact h.lt c hc
    · obtain rfl := List.mem_singleton.mp hc
      exact (List.findIdx?_eq_some_iff_getElem.mp hfind).1
  name := by
    intro c hc
    rcases List.mem_append.mp hc with hc | hc
    · exact h.name c hc
    · obtain rfl := List.mem_singleton.mp hc
      exact ⟨name, hname, fun _ => hfind⟩
  first := by
    intro j table hj
    obtain ⟨first, hfirst, hsizes⟩ := h.first j table hj
    exact ⟨first, find_append_of_some hfirst, hsizes⟩

theorem findIdx_append_of_some {p : NosKvTable → Bool} (h : tables.findIdx? p = some i) :
    (tables ++ [table]).findIdx? p = some i := by
  rw [List.findIdx?_append, h, Option.some_or]

theorem getElem?_append_cases {t : NosKvTable} (h : (tables ++ [table])[i]? = some t) :
    tables[i]? = some t ∨ i = tables.length ∧ t = table := by
  obtain ⟨hlt, rfl⟩ := List.getElem?_eq_some_iff.mp h
  rw [List.length_append, List.length_singleton] at hlt
  rcases Nat.lt_succ_iff_lt_or_eq.mp hlt with hi | rfl
  · exact .inl (by rw [List.getElem_append_left hi, List.getElem?_eq_getElem hi])
  · exact .inr ⟨rfl, List.getElem_concat_length rfl _⟩

theorem Inv.create (h : mgr.Inv) (hname : call.name = some name)
    (hfind : mgr.tables.findIdx? (fun t => t.name = name) = none)
    (hnew : newTable name call.keySize call.maxValSize call.capacity = some table) :
    (mgr.record call (mgr.tables ++ [table]) (some mgr.tables.length)).Inv := by
  obtain ⟨hstored, hkey, hval⟩ := newTable_sizes hnew
  constructor
  · intro c hc
    rw [record, List.length_append]
    rcases List.mem_append.mp hc with hc | hc
    · exact Nat.lt_succ_of_lt (h.lt c hc)
    · obtain rfl := List.mem_singleton.mp hc
      exact Nat.lt_succ_self _
  · intro c hc
    rcases List.mem_append.mp hc with hc | hc
    · obtain ⟨name', hname', hidx⟩ := h.name c hc
      exact ⟨name', hname', fun hlen => findIdx_append_of_some (hidx hlen)⟩
    · obtain rfl := List.mem_singleton.mp hc
      refine ⟨name, hname, fun hlen => ?_⟩
      rw [record, List.findIdx?_append, hfind]
      simp [hstored, List.take_of_length_le hlen]
  · intro j t hj
    rcases getElem?_append_cases hj with hj | ⟨rfl, rfl⟩
    · obtain ⟨first, hfirst, hsizes⟩ := h.first j t hj
      exact ⟨first, find_append_of_some hfirst, hsizes⟩
    · refine ⟨(call, mgr.tables.length), ?_, hkey, hval⟩
      have hfresh : mgr.opened.find? (fun c => c.2 = mgr.tables.length) = none := by
        refine List.find?_eq_none.mpr fun c hc => ?_
        simpa using Nat.ne_of_lt (h.lt c hc)
      simp [record, List.find?_append, hfresh]

theorem Inv.step (h : mgr.Inv) (hs : mgr.step call = some mgr') : mgr'.Inv := by
  rw [KvMgr.step] at hs
  cases hname : call.name with
  | none =>
    rw [hname] at hs
    obtain rfl := Option.some.inj hs
    exact h.fail
  | some name =>
    rw [hname] at hs
    obtain ⟨r, hr, rfl⟩ := Option.map_eq_some_iff.mp hs
    rcases nosKvTableCreate_cases hr with rfl | ⟨i, rfl, hfind⟩ | ⟨hfind, table, rfl, hnew⟩
    · exact h.fail
    · exact h.open hname hfind
    · exact h.create hname hfind hnew

theorem Inv.sameTable (h : mgr.Inv) {c c' : KvCreateCall × ℕ} (hc : c ∈ mgr.opened)
    (hc' : c' ∈ mgr.opened) (hshort : ShortName c.1) (hshort' : ShortName c'.1) :
    SameTableIff c c' := by
  obtain ⟨name, hname, hidx⟩ := h.name c hc
  obtain ⟨name', hname', hidx'⟩ := h.name c' hc'
  have hfind := hidx (hshort name hname)
  have hfind' := hidx' (hshort' name' hname')
  rw [SameTableIff, hname, hname']
  constructor
  · intro he
    rw [he] at hfind
    obtain ⟨hlt, hstored, -⟩ := List.findIdx?_eq_some_iff_getElem.mp hfind
    obtain ⟨hlt', hstored', -⟩ := List.findIdx?_eq_some_iff_getElem.mp hfind'
    rw [← of_decide_eq_true hstored, ← of_decide_eq_true hstored']
  · intro he
    obtain rfl := Option.some.inj he
    exact Option.some.inj (hfind.symm.trans hfind')

theorem Inv.sizesOfFirst (h : mgr.Inv) : mgr.SizesOfFirst := by
  intro c hc
  have hlt := h.lt c hc
  obtain ⟨first, hfirst, hsizes⟩ := h.first c.2 _ (List.getElem?_eq_getElem hlt)
  exact ⟨_, first, List.getElem?_eq_getElem hlt, hfirst, hsizes⟩

/-- What the tables promise: successful calls with names that fit return the same table exactly
when their names are equal, and a table has the sizes that the first call for it requested. -/
def OpenOrCreate (mgr : KvMgr) : Prop :=
  (∀ c ∈ mgr.opened, ∀ c' ∈ mgr.opened, ShortName c.1 → ShortName c'.1 → SameTableIff c c') ∧
    mgr.SizesOfFirst

def NamesDecide (mgr : KvMgr) : Prop :=
  ∀ c ∈ mgr.opened, ∀ c' ∈ mgr.opened, SameTableIff c c'

def fourByteCall (name : Bytes) (keySize : ℕ) : KvCreateCall := ⟨some name, keySize, 4, 16, true⟩

/-- A second call for one name gets a second table when the name has 32 bytes, and when it is
short the table of the first call, whatever key size it requests. -/
theorem not_openOrCreate_of_any_name :
    ¬ Run.Always step NamesDecide init
      [fourByteCall (List.replicate 32 97) 4, fourByteCall (List.replicate 32 97) 4] ∧
    ¬ Run.Always step SizesGranted init [fourByteCall [97] 4, fourByteCall [97] 8] := by
  constructor
  · intro h
    have hlaw := h.last rfl
    have := (hlaw (fourByteCall (List.replicate 32 97) 4, 0) (by simp [record, init])
      (fourByteCall (List.replicate 32 97) 4, 1) (by simp [record, init])).mpr rfl
    exact absurd this (by decide)
  · intro h
    have hlaw := h.last rfl
    obtain ⟨table, htable, hkey, -⟩ := hlaw (fourByteCall [97] 8, 0) (by simp [record, init])
    obtain rfl := Option.some.inj htable
    exact absurd hkey (by decide)

/-- Tables are opened or created by their names, in every sequence of calls. -/
theorem always_openOrCreate (calls : List KvCreateCall) :
    Run.Always step OpenOrCreate init calls :=
  Run.always_of_invariant (fun _ _ _ h hs => h.step hs)
    (fun _ h => ⟨fun _ hc _ hc' => h.sameTable hc hc', h.sizesOfFirst⟩) Inv.init

end KvMgr

end GeminiNOS

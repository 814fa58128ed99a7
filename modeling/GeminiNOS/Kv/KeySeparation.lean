import GeminiNOS.Foundations.Run
import GeminiNOS.Kv.Refinement

/-! # What a key learns of another key

Records move between keys through the free stack and keep their bytes. Two runs of the
same calls are compared that put other values of the same lengths under one key. Beside
the first run it is marked which value bytes were last written under this key.
-/

namespace GeminiNOS

open Foundations IndexChain

/-- A call on a table. A put with `val = NULL` only sets the length of the value. -/
inductive KvAccess where
  | call (call : KvCall)
  | putNull (key : Bytes) (valLen : ℕ)

namespace KvAccess

def KeySized (keySize : ℕ) : KvAccess → Prop
  | .call c => c.KeySized keySize
  | .putNull key _ => key.length = keySize

/-- The call is a `nos_kv_get` or a `nos_kv_get_ptr` of another key. -/
def Observes (a : Bytes) : KvAccess → Prop
  | .call (.get key _) => key ≠ a
  | .call (.getPtr key) => key ≠ a
  | _ => False

instance (a : Bytes) : DecidablePred (Observes a)
  | .call (.put _ _) => isFalse id
  | .call (.get key _) => inferInstanceAs (Decidable (key ≠ a))
  | .call (.getPtr key) => inferInstanceAs (Decidable (key ≠ a))
  | .call (.releasePtr _) => isFalse id
  | .call (.del _) => isFalse id
  | .putNull _ _ => isFalse id

/-- Two calls are the same, up to the value bytes of a put under a key. -/
inductive SameBut (a : Bytes) : KvAccess → KvAccess → Prop
  | refl (access : KvAccess) : SameBut a access access
  | put (val val' : Bytes) (h : val'.length = val.length) :
    SameBut a (.call (.put a val)) (.call (.put a val'))

end KvAccess

namespace NosKvTable

def access (table : NosKvTable) : KvAccess → Option (KvResult × NosKvTable)
  | .call c => table.kvStep c
  | .putNull key valLen => (table.nosKvPut key none valLen).map fun r => (.status r.1, r.2.1)

/-- What the gets of the other keys return, up to a call that does not return. -/
def observe (a : Bytes) : NosKvTable → List KvAccess → List (Option KvResult)
  | _, [] => []
  | table, access :: rest =>
    match table.access access with
    | none => [none]
    | some (r, table') =>
      (if access.Observes a then [some r] else []) ++ table'.observe a rest

def putIdx (table : NosKvTable) (key : Bytes) : Option ℕ :=
  (table.bucketOf key).bind fun b =>
    match table.lookup b key with
    | .endless => none
    | .found _ currIdx => some currIdx
    | .absent =>
      if table.freeTop < 0 then none else some (table.freeStack table.freeTop.toNat)

end NosKvTable

/-- A table with marks on the value bytes of the record at each offset: those that a put under the
key has written last. -/
structure MarkedTable where
  table : NosKvTable
  marks : ℕ → ℕ → Bool

namespace MarkedTable

def markPut (s : MarkedTable) (a key : Bytes) (val : Option Bytes) (valLen o p : ℕ) : Bool :=
  if val.isSome ∧ valLen ≤ s.table.maxValSize ∧ p < valLen ∧
      (s.table.putIdx key).map s.table.entryOffset = some o then decide (key = a)
  else s.marks o p

def mark (s : MarkedTable) (a : Bytes) : KvAccess → ℕ → ℕ → Bool
  | .call (.put key val) => s.markPut a key (some val) val.length
  | .putNull key valLen => s.markPut a key none valLen
  | _ => s.marks

def step (a : Bytes) (s : MarkedTable) (access : KvAccess) : Option MarkedTable :=
  (s.table.access access).map fun r => ⟨r.2, s.mark a access⟩

/-- The condition on a call: a put with `val = NULL` under another key does not take a byte into the
value that the key has written. -/
def Separated (a : Bytes) (s : MarkedTable) : KvAccess → Prop
  | .putNull key valLen => key ≠ a → valLen ≤ s.table.maxValSize →
    ∀ i, s.table.putIdx key = some i → ∀ p < valLen, s.marks (s.table.entryOffset i) p = false
  | _ => True

end MarkedTable

/-- Two records agree but for marked bytes of their values. -/
structure SameEntry (keySize : ℕ) (marks : ℕ → Bool) (e e' : NosKvEntry) : Prop where
  nextIdx : e'.nextIdx = e.nextIdx
  valLen : e'.valLen = e.valLen
  subList : e'.subList = e.subList
  length : e'.data.length = e.data.length
  key : e'.data.take keySize = e.data.take keySize
  val : ∀ p, marks p = false → e'.data[keySize + p]? = e.data[keySize + p]?

/-- The memories of two tables agree but for marked bytes. -/
def Alike (keySize : ℕ) (marks : ℕ → ℕ → Bool) (mem mem' : ℕ → NosKvEntry) : Prop :=
  ∀ o, SameEntry keySize (marks o) (mem o) (mem' o)

variable {table : NosKvTable} {mem mem' : ℕ → NosKvEntry} {marks marks' : ℕ → ℕ → Bool}
  {e e' : NosKvEntry} {data data' key a : Bytes} {val val' : Option Bytes}
  {keySize valLen n o i b : ℕ} {chain : ℕ → List ℕ}

theorem SameEntry.refl {m : ℕ → Bool} : SameEntry keySize m e e :=
  ⟨rfl, rfl, rfl, rfl, rfl, fun _ _ => rfl⟩

theorem read_congr (h : ∀ p < n, data'[keySize + p]? = data[keySize + p]?) :
    (data'.drop keySize).take n = (data.drop keySize).take n := by
  refine List.ext_getElem? fun p => ?_
  rw [List.getElem?_take, List.getElem?_take, List.getElem?_drop, List.getElem?_drop]
  split
  · exact h p ‹_›
  · rfl

theorem Alike.update (h : Alike keySize marks mem mem') (he : SameEntry keySize (marks' o) e e')
    (hmarks : ∀ o', o' ≠ o → marks' o' = marks o') :
    Alike keySize marks' (Function.update mem o e) (Function.update mem' o e') := by
  intro o'
  by_cases ho : o' = o
  · subst ho
    rwa [Function.update_self, Function.update_self]
  · rw [Function.update_of_ne ho, Function.update_of_ne ho, hmarks o' ho]
    exact h o'

namespace NosKvTable

def withMem (table : NosKvTable) (mem : ℕ → NosKvEntry) : NosKvTable :=
  { table with poolMem := mem }

theorem getElem?_storeVal {val : Bytes} (hd : table.keySize + valLen ≤ data.length)
    (hv : val.length = valLen) (p : ℕ) :
    (table.storeVal data (some val) valLen)[table.keySize + p]? =
      if p < valLen then val[p]? else data[table.keySize + p]? := by
  subst hv
  have hlen : (data.take table.keySize).length = table.keySize := by
    rw [List.length_take, Nat.min_eq_left (by omega)]
  simp only [storeVal, memcpyAt, List.take_length, List.append_assoc]
  rw [List.getElem?_append_right (by omega), hlen, Nat.add_sub_cancel_left]
  split
  · exact List.getElem?_append_left ‹_›
  · rw [List.getElem?_append_right (by omega), List.getElem?_drop]
    congr 1
    omega

theorem take_memcpyAt_key : (memcpyAt data 0 key).take key.length = key :=
  List.take_left' rfl

theorem getElem?_memcpyAt_key {p : ℕ} :
    (memcpyAt data 0 key)[key.length + p]? = data[key.length + p]? := by
  simp only [memcpyAt, List.take_zero, List.nil_append, Nat.zero_add]
  rw [List.getElem?_append_right (Nat.le_add_right ..), List.getElem?_drop,
    Nat.add_sub_cancel_left]

/-- The walks on two such tables take the same way. -/
theorem walk_withMem (h : Alike table.keySize marks table.poolMem mem) (rounds prev idx : ℕ) :
    (table.withMem mem).walk key rounds prev idx = table.walk key rounds prev idx := by
  induction rounds generalizing prev idx with
  | zero => rfl
  | succ rounds ih =>
    have hentry := h (table.entryOffset idx)
    have hmatch : (table.withMem mem).KeyMatches ((table.withMem mem).getEntry idx) key ↔
        table.KeyMatches (table.getEntry idx) key := by
      show (mem (table.entryOffset idx)).data.take table.keySize = _ ↔ _
      rw [hentry.key]
      rfl
    have hnext : ((table.withMem mem).getEntry idx).nextIdx = (table.getEntry idx).nextIdx :=
      hentry.nextIdx
    rw [walk, walk, ih, hnext]
    simp only [hmatch]

theorem lookup_withMem (h : Alike table.keySize marks table.poolMem mem) :
    (table.withMem mem).lookup b key = table.lookup b key :=
  walk_withMem h ..

theorem unlink_withMem (h : Alike table.keySize marks table.poolMem mem) (b prev i : ℕ) :
    ∃ mem', (table.withMem mem).unlink b prev i = (table.unlink b prev i).withMem mem' ∧
      Alike table.keySize marks (table.unlink b prev i).poolMem mem' := by
  have hnext : ((table.withMem mem).getEntry i).nextIdx = (table.getEntry i).nextIdx :=
    (h (table.entryOffset i)).nextIdx
  unfold unlink
  by_cases hprev : prev = kvInvalidIdx
  · refine ⟨mem, ?_, ?_⟩
    · simp only [if_pos hprev, hnext]
      rfl
    · simpa only [if_pos hprev] using h
  · have hold := h (table.entryOffset prev)
    refine ⟨Function.update mem (table.entryOffset prev)
      { mem (table.entryOffset prev) with nextIdx := (table.getEntry i).nextIdx }, ?_, ?_⟩
    · simp only [if_neg hprev, hnext]
      rfl
    · simp only [if_neg hprev]
      exact h.update ⟨rfl, hold.valLen, hold.subList, hold.length, hold.key, hold.val⟩
        fun _ _ => rfl

theorem reclaim_withMem (h : Alike table.keySize marks table.poolMem mem) (i : ℕ) :
    ∃ mem', (table.withMem mem).reclaim i = (table.reclaim i).withMem mem' ∧
      Alike table.keySize marks (table.reclaim i).poolMem mem' := by
  have hold := h (table.entryOffset i)
  refine ⟨Function.update mem (table.entryOffset i)
    { mem (table.entryOffset i) with subList := [] }, rfl, ?_⟩
  exact h.update ⟨hold.nextIdx, hold.valLen, rfl, hold.length, hold.key, hold.val⟩ fun _ _ => rfl

theorem delete_withMem (h : Alike table.keySize marks table.poolMem mem) (b prev i : ℕ) :
    ∃ mem', (table.withMem mem).delete b prev i = (table.delete b prev i).withMem mem' ∧
      Alike table.keySize marks (table.delete b prev i).poolMem mem' := by
  obtain ⟨mem', hunlink, halike⟩ := unlink_withMem h b prev i
  have hsize : (table.unlink b prev i).keySize = table.keySize := by
    unfold unlink
    split <;> rfl
  have hunlinked : Alike (table.unlink b prev i).keySize marks (table.unlink b prev i).poolMem
      mem' := hsize ▸ halike
  obtain ⟨mem'', hreclaim, halike⟩ := reclaim_withMem hunlinked i
  exact ⟨mem'', by rw [delete, hunlink, hreclaim]; rfl, hsize ▸ halike⟩

end NosKvTable

/-- What a put stores in the two runs: nothing, or as many bytes, the same ones under another
key. -/
def SameVal (a key : Bytes) (valLen : ℕ) (val val' : Option Bytes) : Prop :=
  val = none ∧ val' = none ∨
    ∃ v v', val = some v ∧ val' = some v' ∧ v.length = valLen ∧ v'.length = valLen ∧
      (key ≠ a → v' = v)

theorem SameVal.storeVal {m m' : ℕ → Bool} (h : SameVal a key valLen val val')
    (hroom : table.keySize + valLen ≤ data.length) (hlen : data'.length = data.length)
    (hkey : data'.take table.keySize = data.take table.keySize)
    (hval : ∀ p, m p = false → data'[table.keySize + p]? = data[table.keySize + p]?)
    (hm : ∀ p, m' p = if val.isSome ∧ p < valLen then decide (key = a) else m p) :
    SameEntry table.keySize m' ⟨n, valLen, [], table.storeVal data val valLen⟩
      ⟨n, valLen, [], table.storeVal data' val' valLen⟩ := by
  have htake : (table.storeVal data' val' valLen).take table.keySize =
      (table.storeVal data val valLen).take table.keySize := by
    rw [NosKvTable.take_storeVal (by omega), NosKvTable.take_storeVal (by omega), hkey]
  rcases h with ⟨rfl, rfl⟩ | ⟨v, v', rfl, rfl, hv, hv', hsame⟩
  · exact ⟨rfl, rfl, rfl, hlen, htake, fun p hp => hval p (by simpa [hm] using hp)⟩
  · refine ⟨rfl, rfl, rfl, ?_, htake, fun p hp => ?_⟩
    · have htv : (v.take valLen).length = valLen := by rw [← hv, List.take_length]
      have htv' : (v'.take valLen).length = valLen := by rw [← hv', List.take_length]
      simp only [NosKvTable.storeVal]
      rw [NosKvTable.length_memcpyAt (by omega), NosKvTable.length_memcpyAt (by omega), hlen]
    · rw [hm] at hp
      simp only
      rw [NosKvTable.getElem?_storeVal hroom hv, NosKvTable.getElem?_storeVal (hlen ▸ hroom) hv']
      by_cases hlt : p < valLen
      · rw [if_pos ⟨rfl, hlt⟩] at hp
        rw [if_pos hlt, if_pos hlt, hsame (of_decide_eq_false hp)]
      · rw [if_neg fun he => hlt he.2] at hp
        rw [if_neg hlt, if_neg hlt, hval p hp]

namespace MarkedTable

variable {s : MarkedTable}

theorem markPut_of_none (h : s.table.putIdx key = none) : s.markPut a key val valLen = s.marks := by
  funext o p
  simp [markPut, h]

theorem markPut_of_lt (h : s.table.maxValSize < valLen) :
    s.markPut a key val valLen = s.marks := by
  funext o p
  simp [markPut, Nat.not_le_of_lt h]

theorem markPut_of_ne (h : s.table.putIdx key = some i) (ho : o ≠ s.table.entryOffset i) :
    s.markPut a key val valLen o = s.marks o := by
  funext p
  simp [markPut, h, Ne.symm ho]

theorem markPut_self (h : s.table.putIdx key = some i) (hlen : valLen ≤ s.table.maxValSize)
    (p : ℕ) : s.markPut a key val valLen (s.table.entryOffset i) p =
      if val.isSome ∧ p < valLen then decide (key = a) else s.marks (s.table.entryOffset i) p := by
  simp [markPut, h, hlen]

end MarkedTable

/-- The marked table of the first run and the memory of the second: they agree but for marked bytes,
and no value of another key has a marked byte. -/
structure Paired (a : Bytes) (keySize : ℕ) (s : MarkedTable) (chain : ℕ → List ℕ)
    (mem : ℕ → NosKvEntry) : Prop where
  inv : s.table.Inv chain
  keySize_eq : s.table.keySize = keySize
  alike : Alike s.table.keySize s.marks s.table.poolMem mem
  clean : ∀ b < s.table.bucketCount, ∀ i ∈ chain b, s.table.keyAt i ≠ a →
    ∀ p < (s.table.getEntry i).valLen, s.marks (s.table.entryOffset i) p = false

/-- What a call does in the two runs. Where it is observed, its results are equal. -/
inductive Parallel (a : Bytes) (keySize : ℕ) (marks : ℕ → ℕ → Bool) (observed : Prop) :
    Option (KvResult × NosKvTable) → Option (KvResult × NosKvTable) → Prop
  | blocked : Parallel a keySize marks observed none none
  | returns {r r' : KvResult} {t : NosKvTable} {chain : ℕ → List ℕ} {mem : ℕ → NosKvEntry}
    (hr : observed → r' = r) (h : Paired a keySize ⟨t, marks⟩ chain mem) :
    Parallel a keySize marks observed (some (r, t)) (some (r', t.withMem mem))

namespace Paired

variable {s : MarkedTable} {observed : Prop} {r : KvResult}

theorem same (h : Paired a keySize s chain mem) :
    Parallel a keySize s.marks observed (some (r, s.table)) (some (r, s.table.withMem mem)) :=
  .returns (fun _ => rfl) h

theorem marks_written {m : ℕ → Bool} {p : ℕ} (hp : p < valLen) (hne : key ≠ a)
    (hsep : val = none → key ≠ a → ∀ p < valLen, m p = false) :
    (if val.isSome ∧ p < valLen then decide (key = a) else m p) = false := by
  cases val with
  | none => simpa using hsep rfl hne p hp
  | some v => simpa [hp] using hne

theorem length_eq (h : Paired a keySize s chain mem) (i : ℕ) :
    ((s.table.withMem mem).getEntry i).data.length = (s.table.getEntry i).data.length :=
  (h.alike (s.table.entryOffset i)).length

theorem overwrite (h : Paired a keySize s chain mem) (hb : b < s.table.bucketCount)
    (hi : i ∈ chain b) (hkey : s.table.keyAt i = key) (hidx : s.table.putIdx key = some i)
    (hlen : valLen ≤ s.table.maxValSize) (hvals : SameVal a key valLen val val')
    (hsep : val = none → key ≠ a → ∀ p < valLen, s.marks (s.table.entryOffset i) p = false) :
    Parallel a keySize (s.markPut a key val valLen) observed
      (some (r, s.table.overwrite i val valLen))
      (some (r, (s.table.withMem mem).overwrite i val' valLen)) := by
  have hold := h.alike (s.table.entryOffset i)
  have hlt := h.inv.used_lt b hb i hi
  have hroom : s.table.keySize + valLen ≤ (s.table.getEntry i).data.length := by
    rw [h.inv.data_length i hlt]
    omega
  have hentry : SameEntry s.table.keySize (s.markPut a key val valLen (s.table.entryOffset i))
      ⟨0, valLen, [], s.table.storeVal (s.table.getEntry i).data val valLen⟩
      ⟨0, valLen, [], s.table.storeVal (mem (s.table.entryOffset i)).data val' valLen⟩ :=
    hvals.storeVal hroom hold.length hold.key hold.val (MarkedTable.markPut_self hidx hlen)
  refine .returns (t := s.table.overwrite i val valLen) (fun _ => rfl)
    ⟨h.inv.overwrite hb hi hlen, h.keySize_eq, ?_, ?_⟩
  · exact h.alike.update ⟨hold.nextIdx, rfl, hold.subList, hentry.length, hentry.key, hentry.val⟩
      fun o ho => MarkedTable.markPut_of_ne hidx ho
  · intro b' hb' j hj hne p hp
    have hj' := h.inv.used_lt b' hb' j hj
    rw [h.inv.keyAt_overwrite hb hi hj'] at hne
    by_cases hji : j = i
    · subst hji
      rw [NosKvTable.overwrite, NosKvTable.getEntry_setEntry_self] at hp
      exact (MarkedTable.markPut_self hidx hlen p).trans (marks_written hp (hkey ▸ hne) hsep)
    · rw [h.inv.getEntry_overwrite_of_ne hb hi hj' hji] at hp
      have hoff : s.table.entryOffset j ≠ s.table.entryOffset i :=
        fun he => hji (h.inv.geometry.entryOffset_inj hj' hlt he)
      exact (congrFun (MarkedTable.markPut_of_ne hidx hoff) p).trans (h.clean b' hb' j hj hne p hp)

theorem insertNew (h : Paired a keySize s chain mem) (hk : key.length = s.table.keySize)
    (hb : s.table.bucketOf key = some b) (habsent : ∀ i ∈ chain b, s.table.keyAt i ≠ key)
    (ht : ¬ s.table.freeTop < 0) (hidx : s.table.putIdx key = some s.table.newIdx)
    (hlen : valLen ≤ s.table.maxValSize) (hvals : SameVal a key valLen val val')
    (hsep : val = none → key ≠ a →
      ∀ p < valLen, s.marks (s.table.entryOffset s.table.newIdx) p = false) :
    Parallel a keySize (s.markPut a key val valLen) observed
      (some (r, s.table.insertNew b key val valLen))
      (some (r, (s.table.withMem mem).insertNew b key val' valLen)) := by
  have hold := h.alike (s.table.entryOffset s.table.newIdx)
  have hlt := h.inv.newIdx_lt ht
  have hdata := h.inv.data_length _ hlt
  have hdata' : (mem (s.table.entryOffset s.table.newIdx)).data.length =
      s.table.keySize + s.table.maxValSize := hold.length.trans hdata
  have htake : key.take s.table.keySize = key := hk ▸ List.take_length
  have hentry : SameEntry s.table.keySize
      (s.markPut a key val valLen (s.table.entryOffset s.table.newIdx))
      ⟨(s.table.buckets b).firstIdx, valLen, [], s.table.storeVal (memcpyAt
        (s.table.getEntry s.table.newIdx).data 0 (key.take s.table.keySize)) val valLen⟩
      ⟨(s.table.buckets b).firstIdx, valLen, [], s.table.storeVal (memcpyAt
        (mem (s.table.entryOffset s.table.newIdx)).data 0 (key.take s.table.keySize))
        val' valLen⟩ := by
    refine hvals.storeVal ?_ ?_ ?_ ?_ (MarkedTable.markPut_self hidx hlen)
    · rw [h.inv.length_key_copied ht hk]
      omega
    · rw [htake, NosKvTable.length_memcpyAt (by omega), NosKvTable.length_memcpyAt (by omega)]
      exact hold.length
    · rw [htake, ← hk, NosKvTable.take_memcpyAt_key, NosKvTable.take_memcpyAt_key]
    · intro p hp
      rw [htake, ← hk, NosKvTable.getElem?_memcpyAt_key, NosKvTable.getElem?_memcpyAt_key, hk]
      exact hold.val p hp
  · refine .returns (t := s.table.insertNew b key val valLen) (fun _ => rfl)
      ⟨h.inv.insertNew ht hb hk hlen habsent, h.keySize_eq, ?_, ?_⟩
    · exact h.alike.update hentry fun o ho => MarkedTable.markPut_of_ne hidx ho
    · intro b' hb' j hj hne p hp
      rcases NosKvTable.mem_chainInsert.mp hj with hj | ⟨rfl, -⟩
      · rw [h.inv.keyAt_insertNew_of_mem ht hb' hj] at hne
        rw [h.inv.getEntry_insertNew_of_mem ht hb' hj] at hp
        have hoff : s.table.entryOffset j ≠ s.table.entryOffset s.table.newIdx := fun he =>
          h.inv.newIdx_notMem ht hb'
            (h.inv.geometry.entryOffset_inj (h.inv.used_lt b' hb' j hj) hlt he ▸ hj)
        exact (congrFun (MarkedTable.markPut_of_ne hidx hoff) p).trans
          (h.clean b' hb' j hj hne p hp)
      · rw [h.inv.keyAt_insertNew_self ht hk] at hne
        rw [NosKvTable.getEntry_insertNew_self] at hp
        exact (MarkedTable.markPut_self hidx hlen p).trans (marks_written hp hne hsep)

theorem put (h : Paired a keySize s chain mem) (hk : key.length = s.table.keySize)
    (hvals : SameVal a key valLen val val')
    (hsep : s.table.nosKvPut key val valLen ≠ none → val = none → key ≠ a →
      valLen ≤ s.table.maxValSize → ∀ i, s.table.putIdx key = some i →
        ∀ p < valLen, s.marks (s.table.entryOffset i) p = false) :
    Parallel a keySize (s.markPut a key val valLen) observed
      ((s.table.nosKvPut key val valLen).map fun r => (.status r.1, r.2.1))
      (((s.table.withMem mem).nosKvPut key val' valLen).map fun r => (.status r.1, r.2.1)) := by
  unfold NosKvTable.nosKvPut
  show Parallel a keySize _ observed
    (Option.map _ (if s.table.maxValSize < valLen then _ else
      (s.table.bucketOf key).bind fun b => if 0 < (s.table.buckets b).readers then _ else _))
    (Option.map _ (if s.table.maxValSize < valLen then _ else
      (s.table.bucketOf key).bind fun b => if 0 < (s.table.buckets b).readers then _ else _))
  by_cases hlen : s.table.maxValSize < valLen
  · rw [if_pos hlen, if_pos hlen, MarkedTable.markPut_of_lt hlen]
    exact h.same
  rw [if_neg hlen, if_neg hlen]
  cases hb : s.table.bucketOf key with
  | none => exact .blocked
  | some b =>
    simp only [Option.bind_some]
    by_cases hreaders : 0 < (s.table.buckets b).readers
    · rw [if_pos hreaders, if_pos hreaders]
      exact .blocked
    rw [if_neg hreaders, if_neg hreaders, NosKvTable.lookup_withMem h.alike]
    have hb' := h.inv.geometry.bucketOf_lt hb
    rcases h.inv.lookup hk hb' with ⟨hw, habsent⟩ | ⟨l₁, i, l₂, hc, hi, hw⟩
    · rw [hw]
      by_cases ht : s.table.freeTop < 0
      · have hnone : s.table.putIdx key = none := by simp [NosKvTable.putIdx, hb, hw, ht]
        have ht' : (s.table.withMem mem).freeTop < 0 := ht
        simp only [if_pos ht, if_pos ht', Option.map_some, MarkedTable.markPut_of_none hnone]
        exact h.same
      · have hidx : s.table.putIdx key = some s.table.newIdx := by
          simp [NosKvTable.putIdx, hb, hw, ht, NosKvTable.newIdx]
        have hreturns : s.table.nosKvPut key val valLen ≠ none := by
          simp [NosKvTable.nosKvPut, hlen, hb, hreaders, hw, ht]
        have ht' : ¬ (s.table.withMem mem).freeTop < 0 := ht
        simp only [if_neg ht, if_neg ht', Option.map_some]
        exact h.insertNew hk hb habsent ht hidx (Nat.le_of_not_lt hlen) hvals
          fun hv hne => hsep hreturns hv hne (Nat.le_of_not_lt hlen) _ hidx
    · rw [hw]
      have hidx : s.table.putIdx key = some i := by simp [NosKvTable.putIdx, hb, hw]
      have hreturns : s.table.nosKvPut key val valLen ≠ none := by
        simp [NosKvTable.nosKvPut, hlen, hb, hreaders, hw]
      exact h.overwrite hb' (by simp [hc]) hi hidx (Nat.le_of_not_lt hlen) hvals
        fun hv hne => hsep hreturns hv hne (Nat.le_of_not_lt hlen) i hidx

theorem read (h : Paired a keySize s chain mem) (hb : b < s.table.bucketCount) (hi : i ∈ chain b)
    (hne : s.table.keyAt i ≠ a) (hn : n ≤ (s.table.getEntry i).valLen) :
    (((s.table.withMem mem).getEntry i).data.drop s.table.keySize).take n =
      ((s.table.getEntry i).data.drop s.table.keySize).take n :=
  read_congr fun p hp => (h.alike (s.table.entryOffset i)).val p
    (h.clean b hb i hi hne p (hp.trans_le hn))

theorem get (h : Paired a keySize s chain mem) (hk : key.length = s.table.keySize) (room : ℕ) :
    Parallel a keySize s.marks (key ≠ a) (s.table.access (.call (.get key room)))
      ((s.table.withMem mem).access (.call (.get key room))) := by
  show Parallel a keySize _ _ (Option.map _ ((s.table.bucketOf key).bind _))
    (Option.map _ ((s.table.bucketOf key).bind _))
  cases hb : s.table.bucketOf key with
  | none => exact .blocked
  | some b =>
    simp only [Option.bind_some]
    rw [NosKvTable.lookup_withMem h.alike]
    have hb' := h.inv.geometry.bucketOf_lt hb
    rcases h.inv.lookup hk hb' with ⟨hw, -⟩ | ⟨l₁, i, l₂, hc, hi, hw⟩
    · rw [hw]
      exact .returns (fun _ => rfl) h
    · rw [hw]
      refine .returns (fun hne => ?_) h
      have hvalLen : ((s.table.withMem mem).getEntry i).valLen = (s.table.getEntry i).valLen :=
        (h.alike (s.table.entryOffset i)).valLen
      have hle : (if room < (s.table.getEntry i).valLen then room
          else (s.table.getEntry i).valLen) ≤ (s.table.getEntry i).valLen := by
        split <;> omega
      simp only [hvalLen]
      exact congrArg (KvResult.copied .ok · _) (h.read hb' (by simp [hc]) (hi ▸ hne) hle)

theorem setReaders (h : Paired a keySize s chain mem) (b n : ℕ) :
    Paired a keySize ⟨s.table.setReaders b n, s.marks⟩ chain mem :=
  ⟨h.inv.setReaders b n, h.keySize_eq, h.alike, h.clean⟩

theorem getPtr (h : Paired a keySize s chain mem) (hk : key.length = s.table.keySize) :
    Parallel a keySize s.marks (key ≠ a) (s.table.access (.call (.getPtr key)))
      ((s.table.withMem mem).access (.call (.getPtr key))) := by
  show Parallel a keySize _ _ (Option.map _ ((s.table.bucketOf key).bind _))
    (Option.map _ ((s.table.bucketOf key).bind _))
  cases hb : s.table.bucketOf key with
  | none => exact .blocked
  | some b =>
    simp only [Option.bind_some]
    rw [NosKvTable.lookup_withMem h.alike]
    have hb' := h.inv.geometry.bucketOf_lt hb
    rcases h.inv.lookup hk hb' with ⟨hw, -⟩ | ⟨l₁, i, l₂, hc, hi, hw⟩
    · rw [hw]
      exact .returns (fun _ => rfl) h
    · rw [hw]
      refine .returns (fun hne => ?_) (h.setReaders b _)
      have hvalLen : ((s.table.withMem mem).getEntry i).valLen = (s.table.getEntry i).valLen :=
        (h.alike (s.table.entryOffset i)).valLen
      simp only [hvalLen]
      exact congrArg (KvResult.exposed · _) (h.read hb' (by simp [hc]) (hi ▸ hne) le_rfl)

theorem releasePtr (h : Paired a keySize s chain mem) (handle : ℕ) :
    Parallel a keySize s.marks observed (s.table.access (.call (.releasePtr handle)))
      ((s.table.withMem mem).access (.call (.releasePtr handle))) := by
  show Parallel a keySize _ _ (Option.map _ (if (s.table.buckets handle).readers = 0 then _ else _))
    (Option.map _ (if (s.table.buckets handle).readers = 0 then _ else _))
  split
  · exact .blocked
  · exact .returns (fun _ => rfl) (h.setReaders handle _)

theorem del (h : Paired a keySize s chain mem) (hk : key.length = s.table.keySize) :
    Parallel a keySize s.marks observed (s.table.access (.call (.del key)))
      ((s.table.withMem mem).access (.call (.del key))) := by
  show Parallel a keySize _ _ (Option.map _ ((s.table.bucketOf key).bind fun b =>
      if 0 < (s.table.buckets b).readers then _ else _))
    (Option.map _ ((s.table.bucketOf key).bind fun b =>
      if 0 < (s.table.buckets b).readers then _ else _))
  cases hb : s.table.bucketOf key with
  | none => exact .blocked
  | some b =>
    simp only [Option.bind_some]
    split
    · exact .blocked
    rw [NosKvTable.lookup_withMem h.alike]
    have hb' := h.inv.geometry.bucketOf_lt hb
    rcases h.inv.lookup hk hb' with ⟨hw, -⟩ | ⟨l₁, i, l₂, hc, hi, hw⟩
    · rw [hw]
      exact .returns (fun _ => rfl) h
    · rw [hw]
      obtain ⟨mem', hdel, halike⟩ :=
        NosKvTable.delete_withMem h.alike b (l₁.getLastD kvInvalidIdx) i
      simp only [Option.map_some, hdel]
      have hsize : (s.table.delete b (l₁.getLastD kvInvalidIdx) i).keySize = s.table.keySize :=
        NosKvTable.keySize_delete
      refine .returns (fun _ => rfl)
        ⟨h.inv.delete hb' hc, hsize.trans h.keySize_eq, hsize ▸ halike, ?_⟩
      intro b₁ hb₁ j hj hne p hp
      rw [NosKvTable.bucketCount_delete] at hb₁
      obtain ⟨hj, -⟩ := (NosKvTable.mem_chainDelete hc (h.inv.isChain b hb').nodup).mp hj
      have hj' := h.inv.used_lt b₁ hb₁ j hj
      rw [h.inv.keyAt_delete hb' hc hj'] at hne
      rw [h.inv.getEntry_delete hb' hc hj'] at hp
      have hoff : (s.table.delete b (l₁.getLastD kvInvalidIdx) i).entryOffset j =
          s.table.entryOffset j := by
        rw [NosKvTable.entryOffset, NosKvTable.entrySize_delete, NosKvTable.entryOffset]
      rw [hoff]
      exact h.clean b₁ hb₁ j hj hne p hp

theorem step {x y : KvAccess} (h : Paired a keySize s chain mem) (hsame : KvAccess.SameBut a x y)
    (hk : x.KeySized keySize) (hsep : ∀ t, s.step a x = some t → s.Separated a x) :
    Parallel a keySize (s.mark a x) (x.Observes a) (s.table.access x)
      ((s.table.withMem mem).access y) := by
  obtain rfl := h.keySize_eq
  cases hsame with
  | put val val' hlen =>
    show Parallel a _ (s.markPut a a (some val) val.length) _ (Option.map _ _)
      (Option.map _ ((s.table.withMem mem).nosKvPut a (some val') val'.length))
    rw [hlen]
    exact h.put hk (.inr ⟨val, val', rfl, rfl, rfl, hlen, fun hne => absurd rfl hne⟩)
      fun _ hv => nomatch hv
  | refl =>
    cases x with
    | putNull key valLen =>
      refine h.put hk (.inl ⟨rfl, rfl⟩) fun hreturns _ => ?_
      obtain ⟨r, hr⟩ := Option.ne_none_iff_exists'.mp hreturns
      refine hsep ⟨r.2.1, s.mark a (.putNull key valLen)⟩ ?_
      simp only [MarkedTable.step, NosKvTable.access, hr, Option.map_some]
    | call c =>
      cases c with
      | put key val =>
        exact h.put hk (.inr ⟨val, val, rfl, rfl, rfl, rfl, fun _ => rfl⟩) fun _ hv => nomatch hv
      | get key room => exact h.get hk room
      | getPtr key => exact h.getPtr hk
      | releasePtr handle => exact h.releasePtr handle
      | del key => exact h.del hk

theorem observe_eq {calls calls' : List KvAccess} (h : Paired a keySize s chain mem)
    (hsame : List.Forall₂ (KvAccess.SameBut a) calls calls')
    (hkeys : ∀ call ∈ calls, call.KeySized keySize)
    (hsep : Run.Guarded (MarkedTable.step a) (MarkedTable.Separated a) s calls) :
    (s.table.withMem mem).observe a calls' = s.table.observe a calls := by
  induction hsame generalizing s chain mem with
  | nil => rfl
  | @cons x y calls calls' hxy _ ih =>
    have hobs : y.Observes a ↔ x.Observes a := by
      cases hxy with
      | refl => exact Iff.rfl
      | put => exact Iff.rfl
    have hstep := h.step hxy (hkeys x List.mem_cons_self) fun t ht => (hsep t ht).1
    rw [NosKvTable.observe, NosKvTable.observe]
    generalize hx : s.table.access x = resultX at hstep
    generalize hy : (s.table.withMem mem).access y = resultY at hstep
    cases hstep with
    | blocked => rfl
    | @returns r r' t chain' mem' hr h' =>
      have hnext : s.step a x = some ⟨t, s.mark a x⟩ := by
        rw [MarkedTable.step, hx, Option.map_some]
      have hrest := ih h' (fun call hc => hkeys call (List.mem_cons_of_mem _ hc)) (hsep _ hnext).2
      simp only [hobs]
      rw [hrest]
      congr 1
      split
      · rw [hr ‹_›]
      · rfl

end Paired

namespace NosKvTable

/-- Runs on a new table that put other values under one key, while no put without a value takes
bytes of this key into a value of another, return the same for the other keys. -/
theorem observe_eq_of_separated {tables : List NosKvTable} {name : Bytes} {maxValSize capacity : ℕ}
    {memory : Bool} {calls calls' : List KvAccess}
    (h : nosKvTableCreate tables name keySize maxValSize capacity memory =
      some (tables ++ [table], some tables.length))
    (hfit : capacity * (sizeofNosKvEntry + keySize + maxValSize) < 2 ^ 32)
    (hkeys : ∀ call ∈ calls, call.KeySized keySize)
    (hsame : List.Forall₂ (KvAccess.SameBut a) calls calls')
    (hsep : Run.Guarded (MarkedTable.step a) (MarkedTable.Separated a)
      ⟨table, fun _ _ => false⟩ calls) :
    table.observe a calls' = table.observe a calls := by
  obtain ⟨hc, hnew⟩ := newTable_of_create h
  have hsize : table.keySize = keySize := by
    obtain ⟨bucketCount, -, rfl⟩ := Option.map_eq_some_iff.mp hnew
    rfl
  have hpaired : Paired a keySize ⟨table, fun _ _ => false⟩ (fun _ => []) table.poolMem :=
    ⟨inv_newTable hc hfit hnew, hsize, fun _ => .refl, fun _ _ _ _ _ _ _ => rfl⟩
  exact hpaired.observe_eq hsame hkeys hsep

theorem separated_of_forall {s : MarkedTable} {calls : List KvAccess}
    (h : ∀ call ∈ calls, ∀ s, MarkedTable.Separated a s call) :
    Run.Guarded (MarkedTable.step a) (MarkedTable.Separated a) s calls :=
  Run.Guarded.mono (I := fun _ => True) (fun _ _ _ _ _ _ => trivial) (fun s _ _ h => h s) trivial
    (Run.guarded_of_forall (G := fun call => ∀ s, MarkedTable.Separated a s call) h)

/-- A key is put, put again without a value and deleted, and another key gets its record. -/
theorem observe_eq_small_table : ∃ table,
    nosKvTableCreate [] [107, 118] 1 8 1 true = some ([] ++ [table], some 0) ∧
      table.observe [1] [.call (.put [1] [8, 5]), .putNull [1] 1, .call (.del [1]),
          .call (.put [2] [3]), .call (.getPtr [2])] =
        table.observe [1] [.call (.put [1] [7, 4]), .putNull [1] 1, .call (.del [1]),
          .call (.put [2] [3]), .call (.getPtr [2])] := by
  have hcreate : nosKvTableCreate [] [107, 118] 1 8 1 true =
      some ([] ++ [(newTable [107, 118] 1 8 1).get rfl], some ([] : List NosKvTable).length) := rfl
  refine ⟨_, hcreate, observe_eq_of_separated hcreate (by decide) ?_
    (.cons (.put [7, 4] [8, 5] rfl) (.cons (.refl _) (.cons (.refl _) (.cons (.refl _)
      (.cons (.refl _) .nil))))) (separated_of_forall ?_)⟩
  · simp [KvAccess.KeySized, KvCall.KeySized]
  · simp [MarkedTable.Separated]

/-- After a put of another key without a value, a get returns the byte that a deleted key has left
in the record. -/
theorem observe_ne_stale_value : ∃ table,
    nosKvTableCreate [] [107, 118] 1 8 1 true = some ([table], some 0) ∧
      List.Forall₂ (KvAccess.SameBut [1])
        [.call (.put [1] [7]), .call (.del [1]), .putNull [2] 1, .call (.get [2] 1)]
        [.call (.put [1] [8]), .call (.del [1]), .putNull [2] 1, .call (.get [2] 1)] ∧
      table.observe [1]
          [.call (.put [1] [8]), .call (.del [1]), .putNull [2] 1, .call (.get [2] 1)] ≠
        table.observe [1]
          [.call (.put [1] [7]), .call (.del [1]), .putNull [2] 1, .call (.get [2] 1)] := by
  refine ⟨(newTable [107, 118] 1 8 1).get rfl, rfl, ?_, by decide +kernel⟩
  exact .cons (.put [7] [8] rfl) (.cons (.refl _) (.cons (.refl _) (.cons (.refl _) .nil)))

end NosKvTable

end GeminiNOS

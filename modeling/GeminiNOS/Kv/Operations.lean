import GeminiNOS.Kv.Invariant

/-! # What the operations do to a table

Each operation that changes a table keeps the representation invariant. Its
effect is stated on the relation between keys and values that a table stores.
-/

namespace GeminiNOS.NosKvTable

open Foundations IndexChain

variable {table : NosKvTable} {chain : ℕ → List ℕ} {key k v : Bytes} {i j b b' : ℕ}
  {val : Option Bytes} {valLen : ℕ} {l₁ l₂ : List ℕ}

def Stores (table : NosKvTable) (chain : ℕ → List ℕ) (key v : Bytes) : Prop :=
  ∃ b < table.bucketCount, ∃ i ∈ chain b, table.keyAt i = key ∧ table.valueAt i = v

theorem Inv.chain_eq (h : table.Inv chain) (hb : b < table.bucketCount)
    (hb' : b' < table.bucketCount) (hi : i ∈ chain b) (hi' : i ∈ chain b') : b = b' :=
  Option.some.inj ((h.home b hb i hi).symm.trans (h.home b' hb' i hi'))

theorem Inv.record_eq (h : table.Inv chain) (hb : b < table.bucketCount)
    (hb' : b' < table.bucketCount) (hi : i ∈ chain b) (hj : j ∈ chain b')
    (he : table.keyAt i = table.keyAt j) : b = b' ∧ i = j := by
  have hbucket : b = b' :=
    Option.some.inj ((h.home b hb i hi).symm.trans ((congrArg _ he).trans (h.home b' hb' j hj)))
  subst hbucket
  exact ⟨rfl, h.key_unique b hb i hi j hj he⟩

theorem keyAt_congr {t t' : NosKvTable} (hs : t'.keySize = t.keySize)
    (hd : (t'.getEntry i).data = (t.getEntry i).data) : t'.keyAt i = t.keyAt i := by
  rw [keyAt, keyAt, hs, hd]

theorem valueAt_congr {t t' : NosKvTable} (hs : t'.keySize = t.keySize)
    (hd : (t'.getEntry i).data = (t.getEntry i).data)
    (hv : (t'.getEntry i).valLen = (t.getEntry i).valLen) : t'.valueAt i = t.valueAt i := by
  rw [valueAt, valueAt, hs, hd, hv]

theorem length_storeVal {data : Bytes} (hd : data.length = table.keySize + table.maxValSize)
    (hv : valLen ≤ table.maxValSize) :
    (table.storeVal data val valLen).length = table.keySize + table.maxValSize := by
  cases val with
  | none => exact hd
  | some val =>
    have : (val.take valLen).length ≤ valLen := List.length_take_le ..
    rw [storeVal, length_memcpyAt (by omega), hd]

theorem take_storeVal {data : Bytes} (hd : table.keySize ≤ data.length) :
    (table.storeVal data val valLen).take table.keySize = data.take table.keySize := by
  cases val with
  | none => rfl
  | some val => exact take_memcpyAt le_rfl hd

theorem read_storeVal {data val : Bytes} (hd : table.keySize ≤ data.length)
    (hv : val.length = valLen) :
    ((table.storeVal data (some val) valLen).drop table.keySize).take valLen = val := by
  subst hv
  rw [storeVal, List.take_length]
  exact read_memcpyAt hd

section Overwrite

variable (h : table.Inv chain) (hb : b < table.bucketCount) (hi : i ∈ chain b)
include h hb hi

theorem Inv.getEntry_overwrite_of_ne (hj : j < table.capacity) (hne : j ≠ i) :
    (table.overwrite i val valLen).getEntry j = table.getEntry j :=
  h.geometry.getEntry_setEntry_of_ne (h.used_lt b hb i hi) hj hne

theorem Inv.next_overwrite (hj : j < table.capacity) :
    (table.overwrite i val valLen).next j = table.next j := by
  by_cases hne : j = i
  · subst hne
    simp [next, overwrite]
  · rw [next, h.getEntry_overwrite_of_ne hb hi hj hne, next]

theorem Inv.keyAt_overwrite (hj : j < table.capacity) :
    (table.overwrite i val valLen).keyAt j = table.keyAt j := by
  by_cases hne : j = i
  · subst hne
    have hd : table.keySize ≤ (table.getEntry j).data.length := by
      rw [h.data_length j hj]
      omega
    rw [keyAt, overwrite, getEntry_setEntry_self]
    exact take_storeVal hd
  · exact keyAt_congr rfl (by rw [h.getEntry_overwrite_of_ne hb hi hj hne])

theorem Inv.overwrite (hv : valLen ≤ table.maxValSize) :
    (table.overwrite i val valLen).Inv chain where
  geometry := ⟨h.geometry.entrySize_eq, h.geometry.fits, h.geometry.bucketCount_pos⟩
  isChain b' hb' := (h.isChain b' hb').congr fun j hj =>
    h.next_overwrite hb hi (h.used_lt b' hb' j hj)
  used_lt := h.used_lt
  home b' hb' j hj := by
    rw [h.keyAt_overwrite hb hi (h.used_lt b' hb' j hj)]
    exact h.home b' hb' j hj
  key_unique b' hb' j hj l hl he := by
    rw [h.keyAt_overwrite hb hi (h.used_lt b' hb' j hj),
      h.keyAt_overwrite hb hi (h.used_lt b' hb' l hl)] at he
    exact h.key_unique b' hb' j hj l hl he
  top_ge := h.top_ge
  free_lt := h.free_lt
  free_inj := h.free_inj
  free_unused := h.free_unused
  cover := h.cover
  data_length j hj := by
    by_cases hne : j = i
    · subst hne
      rw [NosKvTable.overwrite, getEntry_setEntry_self]
      exact length_storeVal (h.data_length j hj) hv
    · rw [h.getEntry_overwrite_of_ne hb hi hj hne]
      exact h.data_length j hj
  valLen_le b' hb' j hj := by
    by_cases hne : j = i
    · subst hne
      rw [NosKvTable.overwrite, getEntry_setEntry_self]
      exact hv
    · rw [h.getEntry_overwrite_of_ne hb hi (h.used_lt b' hb' j hj) hne]
      exact h.valLen_le b' hb' j hj

theorem Inv.valueAt_overwrite_self {val : Bytes} (hl : val.length = valLen) :
    (table.overwrite i (some val) valLen).valueAt i = val := by
  have hd : table.keySize ≤ (table.getEntry i).data.length := by
    rw [h.data_length i (h.used_lt b hb i hi)]
    omega
  rw [valueAt, NosKvTable.overwrite, getEntry_setEntry_self]
  exact read_storeVal hd hl

theorem Inv.stores_overwrite {val : Bytes} (hl : val.length = valLen) (hk : table.keyAt i = key) :
    (table.overwrite i (some val) valLen).Stores chain k v ↔
      if k = key then v = val else table.Stores chain k v := by
  have hi' : i < table.capacity := h.used_lt b hb i hi
  by_cases hkk : k = key
  · rw [if_pos hkk]
    constructor
    · rintro ⟨b', hb', j, hj, hkj, rfl⟩
      rw [h.keyAt_overwrite hb hi (h.used_lt b' hb' j hj), hkk, ← hk] at hkj
      obtain ⟨-, rfl⟩ := h.record_eq hb' hb hj hi hkj
      exact h.valueAt_overwrite_self hb hi hl
    · rintro rfl
      refine ⟨b, hb, i, hi, ?_, h.valueAt_overwrite_self hb hi hl⟩
      rw [h.keyAt_overwrite hb hi hi', hk, hkk]
  · rw [if_neg hkk]
    refine exists_congr fun b' => and_congr_right fun hb' => exists_congr fun j =>
      and_congr_right fun hj => ?_
    have hj' := h.used_lt b' hb' j hj
    rw [h.keyAt_overwrite hb hi hj']
    refine and_congr_right fun hkj => ?_
    have hne : j ≠ i := fun he => hkk (by rw [← hkj, he, hk])
    have hentry : (table.overwrite i (some val) valLen).getEntry j = table.getEntry j :=
      h.getEntry_overwrite_of_ne hb hi hj' hne
    have hvalue : (table.overwrite i (some val) valLen).valueAt j = table.valueAt j :=
      valueAt_congr rfl (by rw [hentry]) (by rw [hentry])
    rw [hvalue]

end Overwrite

def newIdx (table : NosKvTable) : ℕ := table.freeStack table.freeTop.toNat

def chainInsert (table : NosKvTable) (chain : ℕ → List ℕ) (b : ℕ) : ℕ → List ℕ :=
  Function.update chain b (table.newIdx :: chain b)

theorem mem_chainInsert :
    j ∈ table.chainInsert chain b b' ↔ j ∈ chain b' ∨ (j = table.newIdx ∧ b' = b) := by
  by_cases hb : b' = b
  · subst hb
    simp [chainInsert, or_comm]
  · simp [chainInsert, hb]

section Insert

variable (h : table.Inv chain) (ht : ¬ table.freeTop < 0)
include h ht

omit h in
theorem onFreeStack_top : table.OnFreeStack table.freeTop.toNat := by
  unfold OnFreeStack
  omega

omit h ht in
theorem onFreeStack_of_insertNew (hj : (table.insertNew b key val valLen).OnFreeStack j) :
    table.OnFreeStack j := by
  have : (j : ℤ) ≤ table.freeTop - 1 := hj
  unfold OnFreeStack
  omega

theorem Inv.newIdx_lt : table.newIdx < table.capacity := h.free_lt _ (onFreeStack_top ht)

theorem Inv.newIdx_notMem (hb : b < table.bucketCount) : table.newIdx ∉ chain b :=
  h.free_unused _ (onFreeStack_top ht) b hb

omit h ht in
theorem getEntry_insertNew_self :
    (table.insertNew b key val valLen).getEntry table.newIdx =
      { nextIdx := (table.buckets b).firstIdx
        valLen := valLen
        subList := []
        data := table.storeVal
          (memcpyAt (table.getEntry table.newIdx).data 0 (key.take table.keySize))
          val valLen } := by
  simp [insertNew, getEntry, setEntry, entryOffset, newIdx]

theorem Inv.getEntry_insertNew_of_ne (hj : j < table.capacity) (hne : j ≠ table.newIdx) :
    (table.insertNew b key val valLen).getEntry j = table.getEntry j :=
  h.geometry.getEntry_setEntry_of_ne (h.newIdx_lt ht) hj hne

theorem Inv.getEntry_insertNew_of_mem (hb : b' < table.bucketCount) (hj : j ∈ chain b') :
    (table.insertNew b key val valLen).getEntry j = table.getEntry j :=
  h.getEntry_insertNew_of_ne ht (h.used_lt b' hb j hj)
    (ne_of_mem_of_not_mem hj (h.newIdx_notMem ht hb))

theorem Inv.length_key_copied (hk : key.length = table.keySize) :
    (memcpyAt (table.getEntry table.newIdx).data 0 (key.take table.keySize)).length =
      table.keySize + table.maxValSize := by
  have hd := h.data_length _ (h.newIdx_lt ht)
  rw [← hk, List.take_length] at *
  rw [length_memcpyAt (by omega), hd]

theorem Inv.keyAt_insertNew_self (hk : key.length = table.keySize) :
    (table.insertNew b key val valLen).keyAt table.newIdx = key := by
  have hlen := h.length_key_copied ht hk
  rw [keyAt, getEntry_insertNew_self]
  change (table.storeVal _ val valLen).take table.keySize = key
  rw [take_storeVal (by omega), ← hk, List.take_length]
  exact read_memcpyAt (Nat.zero_le _)

theorem Inv.keyAt_insertNew_of_mem (hb : b' < table.bucketCount) (hj : j ∈ chain b') :
    (table.insertNew b key val valLen).keyAt j = table.keyAt j :=
  keyAt_congr rfl (by rw [h.getEntry_insertNew_of_mem ht hb hj])

theorem Inv.valueAt_insertNew_self {val : Bytes} (hk : key.length = table.keySize)
    (hl : val.length = valLen) :
    (table.insertNew b key (some val) valLen).valueAt table.newIdx = val := by
  have hlen := h.length_key_copied ht hk
  rw [valueAt, getEntry_insertNew_self]
  change ((table.storeVal _ (some val) valLen).drop table.keySize).take valLen = val
  exact read_storeVal (by omega) hl

theorem Inv.isChain_insertNew (hb : b < table.bucketCount) (hb' : b' < table.bucketCount) :
    IsChain (table.insertNew b key val valLen).next kvInvalidIdx
      ((table.insertNew b key val valLen).buckets b').firstIdx (table.chainInsert chain b b') := by
  have hold : IsChain (table.insertNew b key val valLen).next kvInvalidIdx
      (table.buckets b').firstIdx (chain b') := (h.isChain b' hb').congr fun j hj => by
    rw [next, next, h.getEntry_insertNew_of_mem ht hb' hj]
  by_cases he : b' = b
  · subst he
    have hnext : (table.insertNew b' key val valLen).next table.newIdx =
        (table.buckets b').firstIdx := by
      rw [next, getEntry_insertNew_self]
    have hpush := hold.push (h.geometry.ne_invalid (h.newIdx_lt ht)) hnext
    simpa [chainInsert, insertNew, newIdx] using hpush
  · simpa [chainInsert, insertNew, he] using hold

theorem Inv.insertNew (hb : table.bucketOf key = some b) (hk : key.length = table.keySize)
    (hv : valLen ≤ table.maxValSize) (habsent : ∀ i ∈ chain b, table.keyAt i ≠ key) :
    (table.insertNew b key val valLen).Inv (table.chainInsert chain b) where
  geometry := ⟨h.geometry.entrySize_eq, h.geometry.fits, h.geometry.bucketCount_pos⟩
  isChain b' hb' := h.isChain_insertNew ht (h.geometry.bucketOf_lt hb) hb'
  used_lt b' hb' j hj := by
    rcases mem_chainInsert.mp hj with hj | ⟨rfl, -⟩
    · exact h.used_lt b' hb' j hj
    · exact h.newIdx_lt ht
  home b' hb' j hj := by
    rcases mem_chainInsert.mp hj with hj | ⟨rfl, rfl⟩
    · rw [h.keyAt_insertNew_of_mem ht hb' hj]
      exact h.home b' hb' j hj
    · rw [h.keyAt_insertNew_self ht hk]
      exact hb
  key_unique b' hb' i hi j hj he := by
    rcases mem_chainInsert.mp hi with hi' | ⟨rfl, rfl⟩ <;>
      rcases mem_chainInsert.mp hj with hj' | ⟨rfl, he'⟩
    · rw [h.keyAt_insertNew_of_mem ht hb' hi', h.keyAt_insertNew_of_mem ht hb' hj'] at he
      exact h.key_unique b' hb' i hi' j hj' he
    · rw [h.keyAt_insertNew_of_mem ht hb' hi', h.keyAt_insertNew_self ht hk] at he
      exact absurd he (habsent i (he' ▸ hi'))
    · rw [h.keyAt_insertNew_of_mem ht hb' hj', h.keyAt_insertNew_self ht hk] at he
      exact absurd he.symm (habsent j hj')
    · rfl
  top_ge := by
    show -1 ≤ table.freeTop - 1
    omega
  free_lt l hl := h.free_lt l (onFreeStack_of_insertNew hl)
  free_inj l m hl hm := h.free_inj l m (onFreeStack_of_insertNew hl) (onFreeStack_of_insertNew hm)
  free_unused l hl b' hb' hmem := by
    have hl' : (l : ℤ) ≤ table.freeTop - 1 := hl
    have hstack : table.OnFreeStack l := onFreeStack_of_insertNew hl
    rcases mem_chainInsert.mp hmem with hmem | ⟨hnew, -⟩
    · exact h.free_unused l hstack b' hb' hmem
    · have := h.free_inj l _ hstack (onFreeStack_top ht) hnew
      omega
  cover j hj := by
    rcases h.cover j hj with ⟨b', hb', hmem⟩ | ⟨l, hl, rfl⟩
    · exact Or.inl ⟨b', hb', mem_chainInsert.mpr (Or.inl hmem)⟩
    · by_cases he : l = table.freeTop.toNat
      · subst he
        exact Or.inl ⟨b, h.geometry.bucketOf_lt hb, mem_chainInsert.mpr (Or.inr ⟨rfl, rfl⟩)⟩
      · refine Or.inr ⟨l, ?_, rfl⟩
        have hl' : (l : ℤ) ≤ table.freeTop := hl
        show (l : ℤ) ≤ table.freeTop - 1
        omega
  data_length j hj := by
    by_cases hne : j = table.newIdx
    · subst hne
      rw [getEntry_insertNew_self]
      exact length_storeVal (h.length_key_copied ht hk) hv
    · rw [h.getEntry_insertNew_of_ne ht hj hne]
      exact h.data_length j hj
  valLen_le b' hb' j hj := by
    rcases mem_chainInsert.mp hj with hj | ⟨rfl, -⟩
    · rw [h.getEntry_insertNew_of_mem ht hb' hj]
      exact h.valLen_le b' hb' j hj
    · rw [getEntry_insertNew_self]
      exact hv

theorem Inv.stores_insertNew {val : Bytes} (hb : table.bucketOf key = some b)
    (hk : key.length = table.keySize) (hl : val.length = valLen)
    (habsent : ∀ i ∈ chain b, table.keyAt i ≠ key) :
    (table.insertNew b key (some val) valLen).Stores (table.chainInsert chain b) k v ↔
      if k = key then v = val else table.Stores chain k v := by
  have hold : ∀ b' < table.bucketCount, ∀ j ∈ chain b', table.keyAt j ≠ key := by
    intro b' hb' j hj he
    obtain rfl : b' = b := Option.some.inj ((h.home b' hb' j hj).symm.trans (he ▸ hb))
    exact habsent j hj he
  have hvalue : ∀ b' < table.bucketCount, ∀ j ∈ chain b',
      (table.insertNew b key (some val) valLen).valueAt j = table.valueAt j := fun b' hb' j hj =>
    valueAt_congr rfl (by rw [h.getEntry_insertNew_of_mem ht hb' hj])
      (by rw [h.getEntry_insertNew_of_mem ht hb' hj])
  constructor
  · rintro ⟨b', hb', j, hj, rfl, rfl⟩
    rcases mem_chainInsert.mp hj with hj | ⟨rfl, -⟩
    · rw [h.keyAt_insertNew_of_mem ht hb' hj, if_neg (hold b' hb' j hj), hvalue b' hb' j hj]
      exact ⟨b', hb', j, hj, rfl, rfl⟩
    · rw [if_pos (h.keyAt_insertNew_self ht hk)]
      exact h.valueAt_insertNew_self ht hk hl
  · by_cases hkk : k = key
    · rw [if_pos hkk]
      rintro rfl
      exact ⟨b, h.geometry.bucketOf_lt hb, table.newIdx, mem_chainInsert.mpr (Or.inr ⟨rfl, rfl⟩),
        (h.keyAt_insertNew_self ht hk).trans hkk.symm, h.valueAt_insertNew_self ht hk hl⟩
    · rw [if_neg hkk]
      rintro ⟨b', hb', j, hj, rfl, rfl⟩
      exact ⟨b', hb', j, mem_chainInsert.mpr (Or.inl hj), h.keyAt_insertNew_of_mem ht hb' hj,
        hvalue b' hb' j hj⟩

end Insert

@[simp] theorem capacity_unlink : (table.unlink b i j).capacity = table.capacity := by
  unfold unlink
  split <;> rfl

@[simp] theorem keySize_delete : (table.delete b i j).keySize = table.keySize := by
  unfold delete unlink
  split <;> rfl

@[simp] theorem bucketCount_delete : (table.delete b i j).bucketCount = table.bucketCount := by
  unfold delete unlink
  split <;> rfl

@[simp] theorem maxValSize_delete : (table.delete b i j).maxValSize = table.maxValSize := by
  unfold delete unlink
  split <;> rfl

@[simp] theorem entrySize_delete : (table.delete b i j).entrySize = table.entrySize := by
  unfold delete unlink
  split <;> rfl

@[simp] theorem capacity_delete : (table.delete b i j).capacity = table.capacity := by
  unfold delete unlink
  split <;> rfl

@[simp] theorem freeTop_delete : (table.delete b i j).freeTop = table.freeTop + 1 := by
  unfold delete unlink
  split <;> rfl

@[simp] theorem freeStack_delete :
    (table.delete b i j).freeStack =
      Function.update table.freeStack (table.freeTop + 1).toNat j := by
  unfold delete unlink
  split <;> rfl

@[simp] theorem bucketOf_delete : (table.delete b i j).bucketOf key = table.bucketOf key := by
  rw [bucketOf, bucketOf, keySize_delete, bucketCount_delete]

theorem onFreeStack_delete {m : ℕ} (hm : (table.delete b j i).OnFreeStack m) :
    m = (table.freeTop + 1).toNat ∨ m ≠ (table.freeTop + 1).toNat ∧ table.OnFreeStack m := by
  rw [OnFreeStack, freeTop_delete] at hm
  unfold OnFreeStack
  omega

/-- The chains after the removal of a record between two parts of a bucket's chain. -/
def chainDelete (chain : ℕ → List ℕ) (b : ℕ) (l₁ l₂ : List ℕ) : ℕ → List ℕ :=
  Function.update chain b (l₁ ++ l₂)

theorem mem_chainDelete (hc : chain b = l₁ ++ i :: l₂) (hn : (chain b).Nodup) :
    j ∈ chainDelete chain b l₁ l₂ b' ↔ j ∈ chain b' ∧ ¬ (j = i ∧ b' = b) := by
  by_cases hb : b' = b
  · subst hb
    rw [hc] at hn ⊢
    have hi : i ∉ l₁ ++ l₂ := (List.nodup_middle.mp hn).notMem
    simp only [chainDelete, Function.update_self, and_true, List.mem_append, List.mem_cons] at hi ⊢
    constructor
    · intro hj
      exact ⟨by tauto, fun he => hi (he ▸ hj)⟩
    · rintro ⟨hj, hne⟩
      tauto
  · simp [chainDelete, hb]

theorem Geometry.unlink (g : table.Geometry) : (table.unlink b i j).Geometry := by
  unfold NosKvTable.unlink
  split <;> exact ⟨g.entrySize_eq, g.fits, g.bucketCount_pos⟩

theorem Geometry.getEntry_reclaim (g : table.Geometry) (hi : i < table.capacity)
    (hj : j < table.capacity) :
    (table.reclaim i).getEntry j =
      { table.getEntry j with subList := if j = i then [] else (table.getEntry j).subList } := by
  by_cases hne : j = i
  · subst hne
    simp [reclaim, getEntry, setEntry, entryOffset]
  · rw [if_neg hne]
    exact g.getEntry_setEntry_of_ne hi hj hne

theorem getEntry_unlink_head : (table.unlink b kvInvalidIdx i).getEntry j = table.getEntry j := by
  rw [NosKvTable.unlink, if_pos rfl]
  rfl

theorem Geometry.getEntry_unlink (g : table.Geometry) (hi : i < table.capacity)
    (hj : j < table.capacity) {l : ℕ} :
    (table.unlink b i l).getEntry j =
      { table.getEntry j with nextIdx := if j = i then table.next l else table.next j } := by
  rw [NosKvTable.unlink, if_neg (g.ne_invalid hi)]
  by_cases hne : j = i
  · subst hne
    rw [if_pos rfl]
    exact getEntry_setEntry_self
  · rw [if_neg hne]
    exact g.getEntry_setEntry_of_ne hi hj hne

section Delete

variable (h : table.Inv chain) (hb : b < table.bucketCount) (hc : chain b = l₁ ++ i :: l₂)
include h hb hc

theorem Inv.removed_lt : i < table.capacity := h.used_lt b hb i (by simp [hc])

theorem Inv.getEntry_delete (hj : j < table.capacity) :
    (table.delete b (l₁.getLastD kvInvalidIdx) i).getEntry j =
      { table.getEntry j with
        nextIdx := if l₁.getLast? = some j then table.next i else table.next j
        subList := if j = i then [] else (table.getEntry j).subList } := by
  have hi := h.removed_lt hb hc
  have g := h.geometry
  rcases List.eq_nil_or_concat l₁ with rfl | ⟨l, p, rfl⟩
  · rw [delete, g.unlink.getEntry_reclaim (by simpa using hi) (by simpa using hj)]
    simp [getEntry_unlink_head, next]
  · have hp : p < table.capacity := h.used_lt b hb p (by simp [hc])
    rw [delete, g.unlink.getEntry_reclaim (by simpa using hi) (by simpa using hj)]
    simp [g.getEntry_unlink hp hj, eq_comm]

theorem Inv.keyAt_delete (hj : j < table.capacity) :
    (table.delete b (l₁.getLastD kvInvalidIdx) i).keyAt j = table.keyAt j :=
  keyAt_congr keySize_delete (by rw [h.getEntry_delete hb hc hj])

theorem Inv.valueAt_delete (hj : j < table.capacity) :
    (table.delete b (l₁.getLastD kvInvalidIdx) i).valueAt j = table.valueAt j :=
  valueAt_congr keySize_delete (by rw [h.getEntry_delete hb hc hj])
    (by rw [h.getEntry_delete hb hc hj])

theorem Inv.isChain_delete_self :
    IsChain (table.delete b (l₁.getLastD kvInvalidIdx) i).next kvInvalidIdx
      ((table.delete b (l₁.getLastD kvInvalidIdx) i).buckets b).firstIdx (l₁ ++ l₂) := by
  have hchain := h.isChain b hb
  rw [hc] at hchain
  rcases List.eq_nil_or_concat l₁ with rfl | ⟨l, p, rfl⟩
  · obtain ⟨hfirst, -, htail⟩ := hchain
    have hhead : ((table.delete b kvInvalidIdx i).buckets b).firstIdx = table.next i := by
      simp [delete, unlink, reclaim, setEntry, next]
    rw [List.getLastD_nil, hhead]
    refine htail.congr fun j hj => ?_
    have := h.getEntry_delete hb hc (h.used_lt b hb j (by simp [hc, hj]))
    simpa [next] using congrArg NosKvEntry.nextIdx this
  · have hp : p < table.capacity := h.used_lt b hb p (by simp [hc])
    have hhead : ((table.delete b p i).buckets b).firstIdx = (table.buckets b).firstIdx := by
      rw [delete, unlink, if_neg (h.geometry.ne_invalid hp)]
      rfl
    have hlast : (l.concat p).getLastD kvInvalidIdx = p := by simp
    rw [hlast, hhead]
    rw [List.concat_append] at hchain ⊢
    refine hchain.unlink.congr fun j hj => ?_
    have hmem : j ∈ chain b := by
      rw [hc, List.concat_append]
      simp only [List.mem_append, List.mem_cons] at hj ⊢
      tauto
    have := h.getEntry_delete hb hc (h.used_lt b hb j hmem)
    rw [hlast] at this
    rw [next, this, Function.update_apply]
    simp [eq_comm]

theorem Inv.isChain_delete_of_ne (hb' : b' < table.bucketCount) (hne : b' ≠ b) :
    IsChain (table.delete b (l₁.getLastD kvInvalidIdx) i).next kvInvalidIdx
      ((table.delete b (l₁.getLastD kvInvalidIdx) i).buckets b').firstIdx (chain b') := by
  have hhead : ((table.delete b (l₁.getLastD kvInvalidIdx) i).buckets b').firstIdx =
      (table.buckets b').firstIdx := by
    unfold delete unlink
    split
    · exact congrArg _ (Function.update_of_ne hne _ _)
    · rfl
  rw [hhead]
  refine (h.isChain b' hb').congr fun j hj => ?_
  have hlast : l₁.getLast? ≠ some j := fun he =>
    hne (h.chain_eq hb' hb hj (by simp [hc, List.mem_of_getLast? he]))
  rw [next, h.getEntry_delete hb hc (h.used_lt b' hb' j hj), if_neg hlast]

theorem Inv.delete :
    (table.delete b (l₁.getLastD kvInvalidIdx) i).Inv (chainDelete chain b l₁ l₂) := by
  have hmem {j b'} : j ∈ chainDelete chain b l₁ l₂ b' ↔ j ∈ chain b' ∧ ¬ (j = i ∧ b' = b) :=
    mem_chainDelete hc (h.isChain b hb).nodup
  have hi := h.removed_lt hb hc
  have htop := h.top_ge
  refine
    { geometry := ?_, isChain := ?_, used_lt := ?_, home := ?_, key_unique := ?_, top_ge := ?_,
      free_lt := ?_, free_inj := ?_, free_unused := ?_, cover := ?_, data_length := ?_,
      valLen_le := ?_ }
  · exact ⟨by simpa using h.geometry.entrySize_eq, by simpa using h.geometry.fits,
      by simpa using h.geometry.bucketCount_pos⟩
  · intro b' hb'
    by_cases hne : b' = b
    · subst hne
      rw [chainDelete, Function.update_self]
      exact h.isChain_delete_self hb hc
    · rw [chainDelete, Function.update_of_ne hne]
      exact h.isChain_delete_of_ne hb hc (by simpa using hb') hne
  · intro b' hb' j hj
    rw [capacity_delete]
    exact h.used_lt b' (by simpa using hb') j (hmem.mp hj).1
  · intro b' hb' j hj
    rw [bucketCount_delete] at hb'
    have hj' := (hmem.mp hj).1
    rw [bucketOf_delete, h.keyAt_delete hb hc (h.used_lt b' hb' j hj')]
    exact h.home b' hb' j hj'
  · intro b' hb' j hj m hm he
    rw [bucketCount_delete] at hb'
    have hj' := (hmem.mp hj).1
    have hm' := (hmem.mp hm).1
    rw [h.keyAt_delete hb hc (h.used_lt b' hb' j hj'),
      h.keyAt_delete hb hc (h.used_lt b' hb' m hm')] at he
    exact h.key_unique b' hb' j hj' m hm' he
  · rw [freeTop_delete]
    omega
  · intro m hm
    rcases onFreeStack_delete hm with rfl | ⟨hne, hm⟩
    · simpa using hi
    · simpa [hne] using h.free_lt m hm
  · intro m n hm hn he
    rcases onFreeStack_delete hm with rfl | ⟨hne, hm⟩ <;>
      rcases onFreeStack_delete hn with rfl | ⟨hne', hn⟩
    · rfl
    · have he' : i = table.freeStack n := by simpa [hne'] using he
      exact absurd (by simp [hc, ← he']) (h.free_unused n hn b hb)
    · have he' : table.freeStack m = i := by simpa [hne] using he
      exact absurd (by simp [hc, he']) (h.free_unused m hm b hb)
    · exact h.free_inj m n hm hn (by simpa [hne, hne'] using he)
  · intro m hm b' hb' hj
    rw [bucketCount_delete] at hb'
    rcases onFreeStack_delete hm with rfl | ⟨hne, hm⟩
    · obtain ⟨hj, hnot⟩ := hmem.mp hj
      rw [freeStack_delete, Function.update_self] at hj hnot
      exact hnot ⟨rfl, h.chain_eq hb' hb hj (by simp [hc])⟩
    · obtain ⟨hj, -⟩ := hmem.mp hj
      rw [freeStack_delete, Function.update_of_ne hne] at hj
      exact h.free_unused m hm b' hb' hj
  · intro j hj
    rw [capacity_delete] at hj
    by_cases hji : j = i
    · refine Or.inr ⟨(table.freeTop + 1).toNat, ?_, by simp [hji]⟩
      rw [OnFreeStack, freeTop_delete]
      omega
    · rcases h.cover j hj with ⟨b', hb', hj⟩ | ⟨m, hm, rfl⟩
      · exact Or.inl ⟨b', by simpa using hb', hmem.mpr ⟨hj, fun he => hji he.1⟩⟩
      · have hm' : (m : ℤ) ≤ table.freeTop := hm
        refine Or.inr ⟨m, ?_, ?_⟩
        · rw [OnFreeStack, freeTop_delete]
          omega
        · rw [freeStack_delete, Function.update_of_ne (by omega)]
  · intro j hj
    rw [capacity_delete] at hj
    rw [h.getEntry_delete hb hc hj, keySize_delete, maxValSize_delete]
    exact h.data_length j hj
  · intro b' hb' j hj
    rw [bucketCount_delete] at hb'
    have hj' := (hmem.mp hj).1
    rw [h.getEntry_delete hb hc (h.used_lt b' hb' j hj'), maxValSize_delete]
    exact h.valLen_le b' hb' j hj'

theorem Inv.stores_delete (hk : table.keyAt i = key) :
    (table.delete b (l₁.getLastD kvInvalidIdx) i).Stores (chainDelete chain b l₁ l₂) k v ↔
      k ≠ key ∧ table.Stores chain k v := by
  have hmem {j b'} : j ∈ chainDelete chain b l₁ l₂ b' ↔ j ∈ chain b' ∧ ¬ (j = i ∧ b' = b) :=
    mem_chainDelete hc (h.isChain b hb).nodup
  constructor
  · rintro ⟨b', hb', j, hj, rfl, rfl⟩
    rw [bucketCount_delete] at hb'
    obtain ⟨hj, hnot⟩ := hmem.mp hj
    have hj' := h.used_lt b' hb' j hj
    rw [h.keyAt_delete hb hc hj', h.valueAt_delete hb hc hj']
    refine ⟨fun he => hnot ?_, b', hb', j, hj, rfl, rfl⟩
    obtain ⟨hbb, hji⟩ := h.record_eq hb' hb hj (by simp [hc]) (he.trans hk.symm)
    exact ⟨hji, hbb⟩
  · rintro ⟨hne, b', hb', j, hj, rfl, rfl⟩
    have hj' := h.used_lt b' hb' j hj
    refine ⟨b', by simpa using hb', j, hmem.mpr ⟨hj, fun he => hne ?_⟩,
      h.keyAt_delete hb hc hj', h.valueAt_delete hb hc hj'⟩
    rw [he.1, hk]

end Delete

theorem Inv.setReaders (h : table.Inv chain) (b n : ℕ) : (table.setReaders b n).Inv chain where
  geometry := ⟨h.geometry.entrySize_eq, h.geometry.fits, h.geometry.bucketCount_pos⟩
  isChain b' hb' := by
    have hfirst : ((table.setReaders b n).buckets b').firstIdx = (table.buckets b').firstIdx := by
      by_cases he : b' = b
      · subst he
        simp [NosKvTable.setReaders]
      · simp [NosKvTable.setReaders, he]
    rw [hfirst]
    exact h.isChain b' hb'
  used_lt := h.used_lt
  home := h.home
  key_unique := h.key_unique
  top_ge := h.top_ge
  free_lt := h.free_lt
  free_inj := h.free_inj
  free_unused := h.free_unused
  cover := h.cover
  data_length := h.data_length
  valLen_le := h.valLen_le

theorem getEntry_setSubList {subList : List NosKvSub} :
    (table.setSubList i subList).getEntry j =
      { table.getEntry j with
        subList :=
          if table.entryOffset j = table.entryOffset i then subList
          else (table.getEntry j).subList } := by
  show Function.update table.poolMem (table.entryOffset i) _ (table.entryOffset j) = _
  rw [Function.update_apply]
  by_cases he : table.entryOffset j = table.entryOffset i
  · rw [if_pos he, if_pos he, getEntry, getEntry, he]
  · rw [if_neg he, if_neg he]
    rfl

theorem Inv.setSubList (h : table.Inv chain) (i : ℕ) (subList : List NosKvSub) :
    (table.setSubList i subList).Inv chain where
  geometry := ⟨h.geometry.entrySize_eq, h.geometry.fits, h.geometry.bucketCount_pos⟩
  isChain b hb := (h.isChain b hb).congr fun j _ => by rw [next, getEntry_setSubList, next]
  used_lt := h.used_lt
  home b hb j hj := by
    rw [keyAt, getEntry_setSubList]
    exact h.home b hb j hj
  key_unique b hb j hj k hk he := by
    rw [keyAt, keyAt, getEntry_setSubList, getEntry_setSubList] at he
    exact h.key_unique b hb j hj k hk he
  top_ge := h.top_ge
  free_lt := h.free_lt
  free_inj := h.free_inj
  free_unused := h.free_unused
  cover := h.cover
  data_length j hj := by
    rw [getEntry_setSubList]
    exact h.data_length j hj
  valLen_le b hb j hj := by
    rw [getEntry_setSubList]
    exact h.valLen_le b hb j hj

end GeminiNOS.NosKvTable

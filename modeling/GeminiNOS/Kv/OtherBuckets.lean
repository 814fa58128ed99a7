import GeminiNOS.Kv.RecordPlaces

/-! # What a step leaves of the other buckets

A thread writes to the records in the chain of its own bucket, and to a record in no
chain. The chains of all other buckets keep their links, lengths, keys and values.
-/

namespace GeminiNOS

open Foundations IndexChain

namespace NosKvTable

variable {table table' : NosKvTable} {chain chain' : ℕ → List ℕ} {b b' i j n : ℕ}
  {l₁ l₂ : List ℕ} {key : Bytes} {args : KvInsert} {val : Option Bytes} {valLen : ℕ}
  {subList : List NosKvSub}

/-- The sizes are as before. -/
structure SameSizes (table table' : NosKvTable) : Prop where
  keySize : table'.keySize = table.keySize
  maxValSize : table'.maxValSize = table.maxValSize
  bucketCount : table'.bucketCount = table.bucketCount

/-- The chain of a bucket, with its links, lengths, keys and values, is as before. -/
structure SameChain (table table' : NosKvTable) (chain chain' : ℕ → List ℕ) (b : ℕ) : Prop where
  chain_eq : chain' b = chain b
  next_eq : ∀ i ∈ chain b, table'.next i = table.next i
  valLen_eq : ∀ i ∈ chain b, (table'.getEntry i).valLen = (table.getEntry i).valLen
  data_eq : ∀ i ∈ chain b, (table'.getEntry i).data = (table.getEntry i).data

theorem SameSizes.refl (table : NosKvTable) : table.SameSizes table := ⟨rfl, rfl, rfl⟩

theorem SameSizes.bucketOf (h : table.SameSizes table') :
    table'.bucketOf key = table.bucketOf key := by
  unfold NosKvTable.bucketOf
  rw [h.keySize, h.bucketCount]

theorem SameChain.keyAt (h : table.SameChain table' chain chain' b) (hs : table.SameSizes table')
    (hi : i ∈ chain b) : table'.keyAt i = table.keyAt i :=
  keyAt_congr hs.keySize (h.data_eq i hi)

theorem SameChain.valueAt (h : table.SameChain table' chain chain' b) (hs : table.SameSizes table')
    (hi : i ∈ chain b) : table'.valueAt i = table.valueAt i :=
  valueAt_congr hs.keySize (h.data_eq i hi) (h.valLen_eq i hi)

theorem SameChain.refl (table : NosKvTable) (chain : ℕ → List ℕ) (b : ℕ) :
    table.SameChain table chain chain b :=
  ⟨rfl, fun _ _ => rfl, fun _ _ => rfl, fun _ _ => rfl⟩

theorem SameChain.of_getEntry (hc : chain' b = chain b)
    (he : ∀ i ∈ chain b, table'.getEntry i = table.getEntry i) :
    table.SameChain table' chain chain' b := by
  constructor
  · exact hc
  · exact fun i hi => congrArg NosKvEntry.nextIdx (he i hi)
  · exact fun i hi => congrArg NosKvEntry.valLen (he i hi)
  · exact fun i hi => congrArg NosKvEntry.data (he i hi)

theorem sameChain_setSubList :
    table.SameChain (table.setSubList i subList) chain chain b := by
  constructor
  · rfl
  · intro j _
    rw [next, getEntry_setSubList, next]
  · intro j _
    rw [getEntry_setSubList]
  · intro j _
    rw [getEntry_setSubList]

namespace Chains

theorem setReaders (h : table.Chains chain) (b n : ℕ) : (table.setReaders b n).Chains chain := by
  obtain ⟨freeStack, freeTop, usedCount, h⟩ := h
  exact ⟨freeStack, freeTop, usedCount, h.setReaders b n⟩

theorem setSubList (h : table.Chains chain) (i : ℕ) (subList : List NosKvSub) :
    (table.setSubList i subList).Chains chain := by
  obtain ⟨freeStack, freeTop, usedCount, h⟩ := h
  exact ⟨freeStack, freeTop, usedCount, h.setSubList i subList⟩

theorem sameChain_overwrite (h : table.Chains chain) (hb : b < table.bucketCount)
    (hi : i ∈ chain b) (hb' : b' < table.bucketCount) (hne : b' ≠ b) :
    table.SameChain (table.overwrite i val valLen) chain chain b' := by
  refine .of_getEntry rfl fun j hj => ?_
  have hij : j ≠ i := fun he => hne (h.chain_eq hb' hb hj (he ▸ hi))
  exact h.geometry.getEntry_setEntry_of_ne (h.used_lt hb hi) (h.used_lt hb' hj) hij

theorem sameChain_linkNew (h : table.Chains chain) (hi : table.Unchained chain i)
    (hb' : b' < table.bucketCount) (hne : b' ≠ args.bucket) :
    table.SameChain (table.linkNew args i) chain
      (Function.update chain args.bucket (i :: chain args.bucket)) b' := by
  refine .of_getEntry (Function.update_of_ne hne _ _) fun j hj => ?_
  have hij : j ≠ i := ne_of_mem_of_not_mem hj (hi.2 b' hb')
  exact h.geometry.getEntry_setEntry_of_ne hi.1 (h.used_lt hb' hj) hij

theorem getEntry_detach_of_ne (h : table.Chains chain) (hb : b < table.bucketCount)
    (hc : chain b = l₁ ++ i :: l₂) (hj : j < table.capacity) (hij : j ≠ i)
    (hlast : l₁.getLast? ≠ some j) :
    (table.detach b (l₁.getLastD kvInvalidIdx) i).getEntry j = table.getEntry j := by
  have g := h.geometry
  have hi : i < table.capacity := h.used_lt hb (by simp [hc])
  have hkept : (table.detach b (l₁.getLastD kvInvalidIdx) i).getEntry j =
      (table.unlink b (l₁.getLastD kvInvalidIdx) i).getEntry j :=
    g.unlink.getEntry_setEntry_of_ne (by simpa using hi) (by simpa using hj) hij
  rw [hkept]
  rcases List.eq_nil_or_concat l₁ with rfl | ⟨l, k, rfl⟩
  · exact getEntry_unlink_head
  · have hk : k < table.capacity := h.used_lt hb (by simp [hc])
    have hne : j ≠ k := by
      rintro rfl
      simp at hlast
    simp [g.getEntry_unlink hk hj, hne, NosKvTable.next]

theorem sameChain_detach (h : table.Chains chain) (hb : b < table.bucketCount)
    (hc : chain b = l₁ ++ i :: l₂) (hb' : b' < table.bucketCount) (hne : b' ≠ b) :
    table.SameChain (table.detach b (l₁.getLastD kvInvalidIdx) i) chain
      (chainDelete chain b l₁ l₂) b' := by
  refine .of_getEntry (Function.update_of_ne hne _ _) fun j hj => ?_
  have hij : j ≠ i := fun he => hne (h.chain_eq hb' hb hj (by simp [hc, he]))
  have hlast : l₁.getLast? ≠ some j := fun he =>
    hne (h.chain_eq hb' hb hj (by simp [hc, List.mem_of_getLast? he]))
  exact h.getEntry_detach_of_ne hb hc (h.used_lt hb' hj) hij hlast

end Chains

end NosKvTable

namespace KvShared

variable {P : Type*} {s s' : KvShared P} {chain : ℕ → List ℕ} {p : P} {b i n : ℕ}
  {lockOwner : ℕ → Option P} {subList : List NosKvSub}

theorem Placed.relock (h : s.Placed chain)
    (hlock : ∀ q b, (s.pc q).bucket = some b → lockOwner b = some q) :
    Placed { s with lockOwner := lockOwner } chain := by
  constructor
  · exact ⟨h.locked.chains, fun q =>
      ⟨hlock q, (h.locked.holds q).bucket_lt, (h.locked.holds q).insertable⟩⟩
  · exact ⟨h.owned.places, h.owned.top_ge, h.owned.stands, h.owned.push_unique⟩

theorem Placed.setReaders (h : s.Placed chain) (b n : ℕ) :
    Placed { s with table := s.table.setReaders b n } chain := by
  constructor
  · refine ⟨h.locked.chains.setReaders b n, fun q => ?_⟩
    have hq := h.locked.holds q
    refine ⟨hq.owner, hq.bucket_lt, fun args ha => ?_⟩
    obtain ⟨hof, hlen, hval, habsent⟩ := hq.insertable args ha
    exact ⟨hof, hlen, hval, habsent⟩
  · exact ⟨h.owned.places, h.owned.top_ge, h.owned.stands, h.owned.push_unique⟩

theorem Placed.setSubList (h : s.Placed chain) (i : ℕ) (subList : List NosKvSub) :
    Placed { s with table := s.table.setSubList i subList } chain := by
  constructor
  · refine ⟨h.locked.chains.setSubList i subList, fun q => ?_⟩
    have hq := h.locked.holds q
    refine ⟨hq.owner, hq.bucket_lt, fun args ha => ?_⟩
    obtain ⟨hof, hlen, hval, habsent⟩ := hq.insertable args ha
    refine ⟨hof, hlen, hval, fun j hj => ?_⟩
    rw [NosKvTable.keyAt, NosKvTable.getEntry_setSubList]
    exact habsent j hj
  · exact ⟨h.owned.places, h.owned.top_ge, h.owned.stands, h.owned.push_unique⟩

variable [DecidableEq P]

/-- What a thread does behind its lookup keeps the places, and the other buckets. -/
theorem Placed.next (h : s.Placed chain) (hfit : s.StackFits p)
    (hs : s.next p (s.pc p) = some s') : ∃ chain', s'.Placed chain' ∧
      s.table.SameSizes s'.table ∧ ∀ b < s.table.bucketCount, (s.pc p).bucket ≠ some b →
        s.table.SameChain s'.table chain chain' b := by
  have hsame {table : NosKvTable} (hpool : table.poolMem = s.table.poolMem)
      (hsize : table.entrySize = s.table.entrySize) (b : ℕ) :
      s.table.SameChain table chain chain b := by
    refine .of_getEntry rfl fun j _ => ?_
    unfold NosKvTable.getEntry NosKvTable.entryOffset
    rw [hpool, hsize]
  cases hpc : s.pc p with
  | idle =>
    rw [hpc] at hs
    cases hs
  | checkTop args =>
    rw [hpc] at hs
    cases hs
    refine ⟨chain, ?_, .refl _, fun b _ _ => hsame (by rfl) (by rfl) b⟩
    split
    · exact h.go hpc rfl (by rintro _ ⟨⟩) rfl rfl rfl rfl
    · exact h.go hpc rfl (fun _ ha => ha) rfl rfl rfl rfl
  | popLoad args =>
    rw [hpc] at hs
    cases hs
    refine ⟨chain, ?_, .refl _, fun b _ _ => hsame (by rfl) (by rfl) b⟩
    exact h.go hpc rfl (fun _ ha => ha) rfl rfl rfl rfl
  | popStore args top =>
    rw [hpc] at hs
    cases hs
    exact ⟨chain, h.popStore hpc hfit, ⟨rfl, rfl, rfl⟩, fun b _ _ => hsame (by rfl) (by rfl) b⟩
  | popSlot args pos =>
    rw [hpc] at hs
    simp only [KvShared.next] at hs
    split at hs <;> cases hs
    refine ⟨chain, ?_, .refl _, fun b _ _ => hsame (by rfl) (by rfl) b⟩
    exact h.go hpc rfl (fun _ ha => ha) rfl rfl rfl rfl
  | fill args i =>
    rw [hpc] at hs
    cases hs
    refine ⟨_, h.fill hpc, ⟨rfl, rfl, rfl⟩, fun b hb hne => ?_⟩
    refine h.locked.chains.sameChain_linkNew (h.unchained_fill hpc) hb fun he => hne ?_
    rw [he]
    rfl
  | pushLoad b i =>
    rw [hpc] at hs
    cases hs
    refine ⟨chain, ?_, .refl _, fun b _ _ => hsame (by rfl) (by rfl) b⟩
    exact h.go hpc rfl (by rintro _ ⟨⟩) rfl rfl rfl rfl
  | pushStore b i top =>
    rw [hpc] at hs
    cases hs
    exact ⟨chain, h.pushStore hpc hfit, ⟨rfl, rfl, rfl⟩, fun b _ _ => hsame (by rfl) (by rfl) b⟩
  | pushSlot b i pos =>
    rw [hpc] at hs
    simp only [KvShared.next] at hs
    split at hs <;> cases hs
    exact ⟨chain, h.pushSlot hpc, ⟨rfl, rfl, rfl⟩, fun b _ _ => hsame (by rfl) (by rfl) b⟩
  | countLoad b inserted =>
    rw [hpc] at hs
    cases hs
    refine ⟨chain, ?_, .refl _, fun b _ _ => hsame (by rfl) (by rfl) b⟩
    exact h.go hpc rfl (by rintro _ ⟨⟩) rfl rfl rfl rfl
  | countStore b inserted usedCount =>
    rw [hpc] at hs
    cases hs
    exact ⟨chain, h.countStore hpc, ⟨rfl, rfl, rfl⟩, fun b _ _ => hsame (by rfl) (by rfl) b⟩
  | unlock b =>
    rw [hpc] at hs
    cases hs
    exact ⟨chain, h.release hpc, .refl _, fun b _ _ => hsame (by rfl) (by rfl) b⟩

theorem next_frame {pc : KvPc} (h : s.next p pc = some s') (hpc : ∀ b, pc ≠ .unlock b) :
    s'.lockOwner = s.lockOwner ∧ s'.pc = Function.update s.pc p (s'.pc p) := by
  cases pc <;> simp only [KvShared.next] at h
  case idle => cases h
  case unlock b => exact absurd rfl (hpc b)
  case popSlot | pushSlot =>
    split at h <;> cases h
    simp only [setPc, setTable, Function.update_self, true_and]
  all_goals
    cases h
    simp only [setPc, setTable, Function.update_self, true_and]

end KvShared

end GeminiNOS

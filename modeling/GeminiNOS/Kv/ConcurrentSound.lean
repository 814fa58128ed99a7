import GeminiNOS.Foundations.Places
import GeminiNOS.Foundations.Total
import GeminiNOS.Kv.Concurrent
import GeminiNOS.Kv.Representation
import Mathlib.Algebra.BigOperators.Group.Finset.Basic

/-! # The owners of the records

While threads put and delete, a record that no chain holds is on the free stack or
in the hands of one thread. As long as the steps fit, every record has one place,
and when all calls have ended, the table is as after calls made one by one.
-/

namespace GeminiNOS

open Foundations IndexChain

namespace NosKvTable

variable {table : NosKvTable} {chain : ℕ → List ℕ} {key : Bytes} {val : Option Bytes}
  {valLen b i j : ℕ} {l₁ l₂ : List ℕ} {args : KvInsert}

/-- The chains are sound, with the other records on some free stack. -/
def Chains (table : NosKvTable) (chain : ℕ → List ℕ) : Prop :=
  ∃ freeStack freeTop usedCount,
    Inv { table with freeStack := freeStack, freeTop := freeTop, usedCount := usedCount } chain

def Unchained (table : NosKvTable) (chain : ℕ → List ℕ) (i : ℕ) : Prop :=
  i < table.capacity ∧ ∀ b < table.bucketCount, i ∉ chain b

theorem Inv.usedCount (h : table.Inv chain) (n : ℕ) : Inv { table with usedCount := n } chain :=
  { h with geometry := ⟨h.geometry.entrySize_eq, h.geometry.fits, h.geometry.bucketCount_pos⟩ }

theorem Inv.retop (h : table.Inv chain) (hi : table.Unchained chain i) :
    ¬ table.freeTop < 0 ∧ ∃ freeStack, freeStack table.freeTop.toNat = i ∧
      Inv { table with freeStack := freeStack } chain := by
  obtain ⟨k, hk, rfl⟩ := (h.cover i hi.1).resolve_left fun ⟨b, hb, hmem⟩ => hi.2 b hb hmem
  have ht : ¬ table.freeTop < 0 := by
    unfold OnFreeStack at hk
    omega
  have hswap : ∀ m, table.OnFreeStack m →
      table.OnFreeStack (Equiv.swap table.freeTop.toNat k m) := by
    intro m hm
    rw [Equiv.swap_apply_def]
    split
    · exact hk
    · split
      · exact onFreeStack_top ht
      · exact hm
  refine ⟨ht, table.freeStack ∘ Equiv.swap table.freeTop.toNat k, by simp, ?_⟩
  refine { h with
    geometry := ⟨h.geometry.entrySize_eq, h.geometry.fits, h.geometry.bucketCount_pos⟩
    free_lt := fun m hm => h.free_lt _ (hswap m hm)
    free_inj := fun m n hm hn he =>
      (Equiv.injective _) (h.free_inj _ _ (hswap m hm) (hswap n hn) he)
    free_unused := fun m hm => h.free_unused _ (hswap m hm)
    cover := fun j hj => ?_ }
  rcases h.cover j hj with hchained | ⟨m, hm, rfl⟩
  · exact Or.inl hchained
  · exact Or.inr ⟨Equiv.swap table.freeTop.toNat k m, hswap m hm, by simp⟩

namespace Chains

theorem geometry (h : table.Chains chain) : table.Geometry := by
  obtain ⟨_, _, _, h⟩ := h
  exact ⟨h.geometry.entrySize_eq, h.geometry.fits, h.geometry.bucketCount_pos⟩

theorem isChain (h : table.Chains chain) (hb : b < table.bucketCount) :
    IsChain table.next kvInvalidIdx (table.buckets b).firstIdx (chain b) := by
  obtain ⟨_, _, _, h⟩ := h
  exact h.isChain b hb

theorem used_lt (h : table.Chains chain) (hb : b < table.bucketCount) (hi : i ∈ chain b) :
    i < table.capacity := by
  obtain ⟨_, _, _, h⟩ := h
  exact h.used_lt b hb i hi

theorem chain_eq (h : table.Chains chain) {b' : ℕ} (hb : b < table.bucketCount)
    (hb' : b' < table.bucketCount) (hi : i ∈ chain b) (hi' : i ∈ chain b') : b = b' := by
  obtain ⟨_, _, _, h⟩ := h
  exact h.chain_eq hb hb' hi hi'

theorem lookup (h : table.Chains chain) (hk : key.length = table.keySize)
    (hb : b < table.bucketCount) :
    (table.lookup b key = .absent ∧ ∀ i ∈ chain b, table.keyAt i ≠ key) ∨
      ∃ l₁ i l₂, chain b = l₁ ++ i :: l₂ ∧ table.keyAt i = key ∧
        table.lookup b key = .found (l₁.getLastD kvInvalidIdx) i := by
  have hchain := h.isChain hb
  obtain ⟨_, _, _, h⟩ := h
  exact walk_chain hk hchain (Nat.lt_succ_of_le (h.length_chain_le hb))

theorem overwrite (h : table.Chains chain) (hb : b < table.bucketCount) (hi : i ∈ chain b)
    (hv : valLen ≤ table.maxValSize) : (table.overwrite i val valLen).Chains chain := by
  obtain ⟨freeStack, freeTop, usedCount, h⟩ := h
  exact ⟨freeStack, freeTop, usedCount, h.overwrite hb hi hv⟩

theorem linkNew (h : table.Chains chain) (hb : table.bucketOf args.key = some args.bucket)
    (hk : args.key.length = table.keySize) (hv : args.valLen ≤ table.maxValSize)
    (habsent : ∀ i ∈ chain args.bucket, table.keyAt i ≠ args.key) (hi : table.Unchained chain i) :
    (table.linkNew args i).Chains
      (Function.update chain args.bucket (i :: chain args.bucket)) := by
  obtain ⟨freeStack, freeTop, usedCount, h⟩ := h
  obtain ⟨ht, freeStack', rfl, h'⟩ := h.retop hi
  exact ⟨freeStack', freeTop - 1, u32 (usedCount + 1), h'.insertNew ht hb hk hv habsent⟩

theorem detach (h : table.Chains chain) (hb : b < table.bucketCount)
    (hc : chain b = l₁ ++ i :: l₂) :
    (table.detach b (l₁.getLastD kvInvalidIdx) i).Chains (chainDelete chain b l₁ l₂) := by
  obtain ⟨freeStack, freeTop, usedCount, h⟩ := h
  have hdelete := h.delete hb hc
  refine ⟨Function.update freeStack (freeTop + 1).toNat i, freeTop + 1,
    u32 (usedCount + (2 ^ 32 - 1)), ?_⟩
  convert hdelete using 1
  unfold NosKvTable.detach NosKvTable.delete NosKvTable.unlink
  split <;> rfl

theorem keyAt_overwrite (h : table.Chains chain) (hb : b < table.bucketCount) (hi : i ∈ chain b)
    (hj : j < table.capacity) : (table.overwrite i val valLen).keyAt j = table.keyAt j := by
  obtain ⟨freeStack, freeTop, usedCount, h⟩ := h
  exact h.keyAt_overwrite hb hi hj

theorem keyAt_linkNew (h : table.Chains chain) (hi : table.Unchained chain i)
    (hb : b < table.bucketCount) (hj : j ∈ chain b) :
    (table.linkNew args i).keyAt j = table.keyAt j := by
  have hne : j ≠ i := ne_of_mem_of_not_mem hj (hi.2 b hb)
  refine keyAt_congr rfl (congrArg NosKvEntry.data ?_)
  exact h.geometry.getEntry_setEntry_of_ne hi.1 (h.used_lt hb hj) hne

theorem keyAt_detach (h : table.Chains chain) (hb : b < table.bucketCount)
    (hc : chain b = l₁ ++ i :: l₂) (hj : j < table.capacity) :
    (table.detach b (l₁.getLastD kvInvalidIdx) i).keyAt j = table.keyAt j := by
  obtain ⟨freeStack, freeTop, usedCount, h⟩ := h
  have hkey := h.keyAt_delete hb hc hj
  unfold NosKvTable.detach
  unfold NosKvTable.delete NosKvTable.unlink at hkey
  unfold NosKvTable.unlink
  split at hkey
  · rw [if_pos ‹_›]
    exact hkey
  · rw [if_neg ‹_›]
    exact hkey

end Chains

@[simp] theorem keySize_detach : (table.detach b i j).keySize = table.keySize := keySize_delete

@[simp] theorem maxValSize_detach : (table.detach b i j).maxValSize = table.maxValSize :=
  maxValSize_delete

@[simp] theorem bucketCount_detach : (table.detach b i j).bucketCount = table.bucketCount :=
  bucketCount_delete

@[simp] theorem capacity_detach : (table.detach b i j).capacity = table.capacity :=
  capacity_delete

def carried (table : NosKvTable) : KvPc → Option ℕ
  | .popSlot _ pos => some (table.freeStack pos.toNat)
  | .fill _ newIdx => some newIdx
  | .pushLoad _ currIdx | .pushStore _ currIdx _ | .pushSlot _ currIdx _ => some currIdx
  | _ => none

def liveKeys (table : NosKvTable) (chain : ℕ → List ℕ) : ℕ :=
  ∑ b ∈ Finset.range table.bucketCount, (chain b).length

theorem liveKeys_update (hb : b < table.bucketCount) (l : List ℕ) :
    table.liveKeys (Function.update chain b l) + (chain b).length =
      table.liveKeys chain + l.length := by
  have hmem : b ∈ Finset.range table.bucketCount := Finset.mem_range.mpr hb
  have hrest : ∑ x ∈ (Finset.range table.bucketCount).erase b,
      (Function.update chain b l x).length =
        ∑ x ∈ (Finset.range table.bucketCount).erase b, (chain x).length := by
    refine Finset.sum_congr rfl fun x hx => ?_
    rw [Function.update_of_ne (Finset.ne_of_mem_erase hx)]
  unfold liveKeys
  rw [← Finset.add_sum_erase _ _ hmem, ← Finset.add_sum_erase _ (fun x => (chain x).length) hmem,
    hrest, Function.update_self]
  omega

end NosKvTable

/-- The insertion that a thread is in, up to its link. -/
def KvPc.inserting : KvPc → Option KvInsert
  | checkTop args | popLoad args | popStore args _ | popSlot args _ | fill args _ => some args
  | _ => none

/-- A record has been linked and is not counted yet. -/
def KvPc.owesInsert : KvPc → ℕ
  | countLoad _ true | countStore _ true _ => 1
  | _ => 0

def KvPc.owesDelete : KvPc → ℕ
  | pushLoad _ _ | pushStore _ _ _ | pushSlot _ _ _ => 1
  | countLoad _ false | countStore _ false _ => 1
  | _ => 0

/-- Where a record without a chain can be. -/
inductive KvPlace (P : Type*) where
  | free (k : ℕ)
  | thread (p : P)

namespace KvShared

variable {P : Type*} {s s' : KvShared P} {chain : ℕ → List ℕ} {p : P} {pc : KvPc}
  {args : KvInsert} {table : NosKvTable} {b i : ℕ} {l₁ l₂ : List ℕ}

/-- The record is at the place. A position of the free stack that has still to be written does not
count. -/
def At (s : KvShared P) : KvPlace P → ℕ → Prop
  | .free k, i => s.table.OnFreeStack k ∧ (∀ q, (s.pc q).pushing ≠ some (k : ℤ)) ∧
      s.table.freeStack k = i
  | .thread p, i => s.table.carried (s.pc p) = some i

/-- What an insertion has looked up still holds. -/
structure Insertable (table : NosKvTable) (chain : ℕ → List ℕ) (args : KvInsert) : Prop where
  bucketOf : table.bucketOf args.key = some args.bucket
  key_length : args.key.length = table.keySize
  valLen_le : args.valLen ≤ table.maxValSize
  absent : ∀ i ∈ chain args.bucket, table.keyAt i ≠ args.key

/-- What the lock of its bucket protects for a thread. -/
structure Holds (table : NosKvTable) (lockOwner : ℕ → Option P) (chain : ℕ → List ℕ) (p : P)
    (pc : KvPc) : Prop where
  owner : ∀ b, pc.bucket = some b → lockOwner b = some p
  bucket_lt : ∀ b, pc.bucket = some b → b < table.bucketCount
  insertable : ∀ args, pc.inserting = some args → Insertable table chain args

/-- The chains are sound, and every thread has the lock that it needs. -/
structure Locked (s : KvShared P) (chain : ℕ → List ℕ) : Prop where
  chains : s.table.Chains chain
  holds : ∀ p, Holds s.table s.lockOwner chain p (s.pc p)

/-- Threads read above the top of the free stack, and write up to it. -/
structure Stands (freeTop : ℤ) (pc : KvPc) : Prop where
  popping : ∀ pos, pc.popping = some pos → 0 ≤ pos ∧ freeTop < pos
  pushing : ∀ pos, pc.pushing = some pos → 0 ≤ pos ∧ pos ≤ freeTop

/-- Every unchained record has one place. -/
structure Owned (s : KvShared P) (chain : ℕ → List ℕ) : Prop where
  places : Partition s.At (s.table.Unchained chain)
  top_ge : -1 ≤ s.table.freeTop
  stands : ∀ p, Stands s.table.freeTop (s.pc p)
  push_unique : ∀ p q pos, (s.pc p).pushing = some pos → (s.pc q).pushing = some pos → p = q

theorem Stands.of_none {freeTop : ℤ} (hpop : pc.popping = none) (hpush : pc.pushing = none) :
    Stands freeTop pc :=
  ⟨fun pos he => by simp [hpop] at he, fun pos he => by simp [hpush] at he⟩

theorem KvPlace.free_ne_thread (k : ℕ) (p : P) : KvPlace.free k ≠ KvPlace.thread p := nofun

/-- The counter is right, but for what the threads still owe. -/
def Counted [Fintype P] (s : KvShared P) (chain : ℕ → List ℕ) : Prop :=
  ((s.table.usedCount : ℤ) + total (fun _ => KvPc.owesInsert) s.pc -
    (s.table.liveKeys chain + total (fun _ => KvPc.owesDelete) s.pc)) % 2 ^ 32 = 0

theorem inserting_bucket {pc : KvPc} (h : pc.inserting = some args) :
    pc.bucket = some args.bucket := by
  cases pc <;> cases h <;> rfl

/-- Threads in other buckets do not notice what a thread does to the chain of its own. -/
theorem Holds.rechain {q : P} {lockOwner : ℕ → Option P} {pc' : KvPc}
    (h : Holds s.table s.lockOwner chain q pc') (hb : pc'.bucket ≠ some b) {l : List ℕ}
    (hlock : ∀ b' ≠ b, lockOwner b' = s.lockOwner b')
    (hcount : table.bucketCount = s.table.bucketCount) (hsize : table.keySize = s.table.keySize)
    (hmax : table.maxValSize = s.table.maxValSize)
    (hkey : ∀ b' < s.table.bucketCount, b' ≠ b → ∀ i ∈ chain b',
      table.keyAt i = s.table.keyAt i) :
    Holds table lockOwner (Function.update chain b l) q pc' := by
  have hne : ∀ b', pc'.bucket = some b' → b' ≠ b := fun b' hb' he => hb (he ▸ hb')
  refine ⟨fun b' hb' => ?_, fun b' hb' => ?_, fun args ha => ?_⟩
  · rw [hlock b' (hne b' hb')]
    exact h.owner b' hb'
  · rw [hcount]
    exact h.bucket_lt b' hb'
  · obtain ⟨hof, hlen, hval, habsent⟩ := h.insertable args ha
    have hb' := inserting_bucket ha
    refine ⟨?_, hlen.trans hsize.symm, hval.trans hmax.ge, fun i hi => ?_⟩
    · unfold NosKvTable.bucketOf at hof ⊢
      rw [hsize, hcount]
      exact hof
    · rw [Function.update_of_ne (hne _ hb')] at hi
      rw [hkey _ (h.bucket_lt _ hb') (hne _ hb') i hi]
      exact habsent i hi

theorem Locked.alone (h : s.Locked chain) (hp : s.lockOwner b = some p) :
    ∀ q ≠ p, (s.pc q).bucket ≠ some b := by
  intro q hq hb
  exact hq (Option.some.inj (((h.holds q).owner b hb).symm.trans hp))

theorem Locked.unlocked (h : s.Locked chain) (hb : s.lockOwner b = none) :
    ∀ q, (s.pc q).bucket ≠ some b := by
  intro q hq
  exact absurd ((h.holds q).owner b hq) (by simp [hb])

theorem Locked.overwrite (h : s.Locked chain) {val : Option Bytes} {valLen : ℕ}
    (hb : b < s.table.bucketCount) (hi : i ∈ chain b) (hv : valLen ≤ s.table.maxValSize) :
    Locked { s with table := s.table.overwrite i val valLen } chain where
  chains := h.chains.overwrite hb hi hv
  holds q := by
    have hq := h.holds q
    refine ⟨hq.owner, hq.bucket_lt, fun args ha => ?_⟩
    obtain ⟨hof, hlen, hval, habsent⟩ := hq.insertable args ha
    refine ⟨hof, hlen, hval, fun j hj => ?_⟩
    have hb' := hq.bucket_lt _ (inserting_bucket ha)
    rw [h.chains.keyAt_overwrite hb hi (h.chains.used_lt hb' hj)]
    exact habsent j hj

theorem carried_congr (hstack : table.freeStack = s.table.freeStack) (pc : KvPc) :
    table.carried pc = s.table.carried pc := by
  cases pc <;> simp [NosKvTable.carried, hstack]

variable [DecidableEq P]

theorem forall_update {Q : P → KvPc → Prop} (hp : Q p pc) (h : ∀ q ≠ p, Q q (s.pc q)) (q : P) :
    Q q (Function.update s.pc p pc q) := by
  rw [Function.update_apply]
  split
  · rename_i he
    rw [he]
    exact hp
  · exact h q ‹_›

theorem Locked.go (h : s.Locked chain) (freeStack : ℕ → ℕ) (freeTop : ℤ) (usedCount : ℕ)
    (hbucket : pc.bucket = (s.pc p).bucket)
    (hins : ∀ args, pc.inserting = some args → (s.pc p).inserting = some args) :
    (s.setTable p { s.table with
      freeStack := freeStack, freeTop := freeTop, usedCount := usedCount } pc).Locked chain where
  chains := h.chains
  holds := by
    have hsame : ∀ q pc, Holds s.table s.lockOwner chain q pc → Holds { s.table with
        freeStack := freeStack, freeTop := freeTop, usedCount := usedCount }
        s.lockOwner chain q pc := fun q pc hq => ⟨hq.owner, hq.bucket_lt, fun args ha =>
      ⟨(hq.insertable args ha).bucketOf, (hq.insertable args ha).key_length,
        (hq.insertable args ha).valLen_le, (hq.insertable args ha).absent⟩⟩
    refine forall_update (hsame p pc ?_) fun q _ => hsame q _ (h.holds q)
    have hp := h.holds p
    exact ⟨fun b hb => hp.owner b (hbucket ▸ hb), fun b hb => hp.bucket_lt b (hbucket ▸ hb),
      fun args ha => hp.insertable args (hins args ha)⟩

/-- A thread alone in a bucket writes to the chain of the bucket. -/
theorem Locked.write (h : s.Locked chain) (hothers : ∀ q ≠ p, (s.pc q).bucket ≠ some b)
    {l : List ℕ} {lockOwner : ℕ → Option P} (hlock : ∀ b' ≠ b, lockOwner b' = s.lockOwner b')
    (hchains : table.Chains (Function.update chain b l))
    (hcount : table.bucketCount = s.table.bucketCount) (hsize : table.keySize = s.table.keySize)
    (hmax : table.maxValSize = s.table.maxValSize)
    (hkey : ∀ b' < s.table.bucketCount, b' ≠ b → ∀ i ∈ chain b',
      table.keyAt i = s.table.keyAt i)
    (hp : Holds table lockOwner (Function.update chain b l) p pc) :
    Locked ⟨table, lockOwner, Function.update s.pc p pc⟩ (Function.update chain b l) where
  chains := hchains
  holds := forall_update hp fun q hq =>
    (h.holds q).rechain (hothers q hq) hlock hcount hsize hmax hkey

theorem Locked.fill (h : s.Locked chain) (hpc : s.pc p = .fill args i)
    (hi : s.table.Unchained chain i) :
    (s.setTable p (s.table.linkNew args i) (.countLoad args.bucket true)).Locked
      (Function.update chain args.bucket (i :: chain args.bucket)) := by
  have hp := h.holds p
  rw [hpc] at hp
  have howner := hp.owner args.bucket rfl
  have hb := hp.bucket_lt args.bucket rfl
  obtain ⟨hof, hlen, hval, habsent⟩ := hp.insertable args rfl
  refine h.write (h.alone howner) (fun _ _ => rfl)
    (h.chains.linkNew hof hlen hval habsent hi) rfl rfl rfl
    (fun b' hb' _ j hj => h.chains.keyAt_linkNew hi hb' hj) ?_
  exact ⟨fun b' hb' => hp.owner b' hb', fun b' hb' => hp.bucket_lt b' hb', fun _ ha => nomatch ha⟩

theorem Locked.enterPut (h : s.Locked chain) (hfree : s.lockOwner args.bucket = none)
    (hargs : Insertable s.table chain args) :
    (s.lock p args.bucket s.table (.checkTop args)).Locked chain := by
  have hb := h.chains.geometry.bucketOf_lt hargs.bucketOf
  have hsame : Function.update chain args.bucket (chain args.bucket) = chain :=
    Function.update_eq_self _ _
  have hholds : Holds s.table (Function.update s.lockOwner args.bucket (some p))
      (Function.update chain args.bucket (chain args.bucket)) p (.checkTop args) := by
    rw [hsame]
    refine ⟨fun b' hb' => ?_, fun b' hb' => ?_, fun a ha => ?_⟩
    · obtain rfl := Option.some.inj hb'
      exact Function.update_self ..
    · obtain rfl := Option.some.inj hb'
      exact hb
    · obtain rfl := Option.some.inj ha
      exact hargs
  have hwrite : (s.lock p args.bucket s.table (.checkTop args)).Locked
      (Function.update chain args.bucket (chain args.bucket)) :=
    h.write (fun q _ => h.unlocked hfree q)
      (fun b' hb' => Function.update_of_ne hb' (some p) s.lockOwner) (hsame.symm ▸ h.chains)
      rfl rfl rfl (fun _ _ _ _ _ => rfl) hholds
  rw [hsame] at hwrite
  exact hwrite

theorem Locked.enterDel (h : s.Locked chain) (hfree : s.lockOwner b = none)
    (hb : b < s.table.bucketCount) (hc : chain b = l₁ ++ i :: l₂) :
    (s.lock p b (s.table.detach b (l₁.getLastD kvInvalidIdx) i) (.pushLoad b i)).Locked
      (NosKvTable.chainDelete chain b l₁ l₂) := by
  refine h.write (fun q _ => h.unlocked hfree q)
    (fun b' hb' => Function.update_of_ne hb' (some p) s.lockOwner) (h.chains.detach hb hc)
    NosKvTable.bucketCount_detach NosKvTable.keySize_detach NosKvTable.maxValSize_detach
    (fun b' hb' _ j hj => h.chains.keyAt_detach hb hc (h.chains.used_lt hb' hj)) ?_
  refine ⟨fun b' hb' => ?_, fun b' hb' => ?_, fun _ ha => nomatch ha⟩
  · obtain rfl := Option.some.inj hb'
    exact Function.update_self ..
  · obtain rfl := Option.some.inj hb'
    exact hb.trans_eq NosKvTable.bucketCount_detach.symm

theorem Locked.release (h : s.Locked chain) (hpc : s.pc p = .unlock b) :
    (s.release p b).Locked chain where
  chains := h.chains
  holds := by
    have hp := h.holds p
    rw [hpc] at hp
    have halone := h.alone (hp.owner b rfl)
    have hidle : Holds s.table (Function.update s.lockOwner b none) chain p .idle := by
      constructor <;> rintro _ ⟨⟩
    refine forall_update hidle fun q hq => ?_
    have hq' := h.holds q
    refine ⟨fun b' hb' => ?_, hq'.bucket_lt, hq'.insertable⟩
    have hne : b' ≠ b := fun he => halone q hq (he ▸ hb')
    exact (Function.update_of_ne hne none s.lockOwner).trans (hq'.owner b' hb')

section Owned

variable {lockOwner : ℕ → Option P} {chain' : ℕ → List ℕ} {k j : ℕ} {q : P}

theorem at_free : At ⟨table, lockOwner, Function.update s.pc p pc⟩ (.free k) j ↔
    table.OnFreeStack k ∧ (pc.pushing ≠ some (k : ℤ) ∧
      ∀ q ≠ p, (s.pc q).pushing ≠ some (k : ℤ)) ∧ table.freeStack k = j := by
  refine and_congr Iff.rfl (and_congr_left' ?_)
  constructor
  · intro h
    have hp := h p
    simp only [Function.update_self] at hp
    refine ⟨hp, fun q hq => ?_⟩
    have hq' := h q
    simpa only [Function.update_of_ne hq] using hq'
  · rintro ⟨hp, h⟩
    exact forall_update (Q := fun _ pc => pc.pushing ≠ some (k : ℤ)) hp h

theorem at_thread : At ⟨table, lockOwner, Function.update s.pc p pc⟩ (.thread q) j ↔
    if q = p then table.carried pc = some j else table.carried (s.pc q) = some j := by
  show table.carried (Function.update s.pc p pc q) = some j ↔ _
  rw [Function.update_apply]
  split <;> exact Iff.rfl

theorem written_iff (hold : (s.pc p).pushing = none) :
    (∀ q ≠ p, (s.pc q).pushing ≠ some (k : ℤ)) ↔ ∀ q, (s.pc q).pushing ≠ some (k : ℤ) := by
  refine ⟨fun h q => ?_, fun h q _ => h q⟩
  by_cases hq : q = p
  · rw [hq, hold]
    simp
  · exact h q hq

/-- A thread that is not about to write moves on, and keeps the writers apart. -/
theorem push_unique_update (h : s.Owned chain) (hpush : ∀ q ≠ p, ∀ pos, pc.pushing = some pos →
      (s.pc q).pushing ≠ some pos) (q q' : P) (pos : ℤ)
    (hq : (Function.update s.pc p pc q).pushing = some pos)
    (hq' : (Function.update s.pc p pc q').pushing = some pos) : q = q' := by
  rw [Function.update_apply] at hq hq'
  split at hq <;> split at hq'
  · rw [‹q = p›, ‹q' = p›]
  · exact absurd hq' (hpush q' ‹_› pos hq)
  · exact absurd hq (hpush q ‹_› pos hq')
  · exact h.push_unique q q' pos hq hq'

theorem Owned.go (h : s.Owned chain) (hstack : table.freeStack = s.table.freeStack)
    (htop : table.freeTop = s.table.freeTop)
    (hun : ∀ j, table.Unchained chain' j ↔ s.table.Unchained chain j)
    (hcar : table.carried pc = s.table.carried (s.pc p)) (hpop : pc.popping = none)
    (hpush : pc.pushing = none) (hold : (s.pc p).pushing = none) :
    Owned ⟨table, lockOwner, Function.update s.pc p pc⟩ chain' := by
  refine ⟨h.places.congr ?_ hun, htop ▸ h.top_ge, ?_, ?_⟩
  · rintro (k | q) j
    · rw [at_free, written_iff hold]
      simp [At, NosKvTable.OnFreeStack, htop, hstack, hpush]
    · rw [at_thread]
      split
      · rw [hcar, ‹q = p›]
        rfl
      · rw [carried_congr hstack]
        rfl
  · show ∀ q, Stands table.freeTop (Function.update s.pc p pc q)
    rw [htop]
    exact forall_update (Q := fun _ pc => Stands s.table.freeTop pc)
      (.of_none hpop hpush) fun q _ => h.stands q
  · exact push_unique_update h fun q _ pos he => by simp [hpush] at he

theorem Owned.take (h : s.Owned chain) (hstack : table.freeStack = s.table.freeStack)
    (htop : -1 ≤ table.freeTop)
    (hun : ∀ j, table.Unchained chain' j ↔ j = i ∨ s.table.Unchained chain j)
    (hcar : table.carried pc = some i)
    (hfree : ∀ k j, table.OnFreeStack k ∧ (∀ q, (s.pc q).pushing ≠ some (k : ℤ)) ∧
      s.table.freeStack k = j ↔ j ≠ i ∧ s.At (.free k) j)
    (hnone : s.table.carried (s.pc p) = none) (hothers : ∀ q, s.table.carried (s.pc q) ≠ some i)
    (hstands : ∀ q ≠ p, Stands table.freeTop (s.pc q)) (hp : Stands table.freeTop pc)
    (hpush : pc.pushing = none) :
    Owned ⟨table, lockOwner, Function.update s.pc p pc⟩ chain' := by
  have hold : (s.pc p).pushing = none := by
    cases hpc : s.pc p <;> rw [hpc] at hnone <;> simp [NosKvTable.carried, KvPc.pushing] at hnone ⊢
  refine ⟨h.places.put (p := .thread p) (i := i) ?_ hun, htop, ?_, ?_⟩
  · rintro (k | q) j
    · rw [at_free, written_iff hold, hstack]
      simp [hpush, hfree]
    · rw [at_thread]
      split
      · rename_i hq
        subst hq
        simp [hcar, At, hnone, eq_comm]
      · rw [carried_congr hstack]
        simp only [KvPlace.thread.injEq, ‹¬ q = p›, and_false, false_or]
        refine ⟨fun hj => ⟨?_, hj⟩, And.right⟩
        rintro rfl
        exact hothers q hj
  · exact forall_update (Q := fun _ pc => Stands table.freeTop pc) hp hstands
  · exact push_unique_update h fun q _ pos he => by simp [hpush] at he

theorem Owned.popStore (h : s.Owned chain) {top : ℤ} (hpc : s.pc p = .popStore args top)
    (htop : s.table.freeTop = top) (hpos : 0 ≤ top) (hwritten : ∀ q, (s.pc q).pushing ≠ some top) :
    (s.setTable p { s.table with freeTop := top - 1 } (.popSlot args top)).Owned chain := by
  obtain ⟨k, rfl⟩ := Int.eq_ofNat_of_zero_le hpos
  have hon : s.At (.free k) (s.table.freeStack k) := ⟨htop.ge, hwritten, rfl⟩
  refine h.take (i := s.table.freeStack k) rfl (by show -1 ≤ (k : ℤ) - 1; omega) ?_ rfl ?_ ?_ ?_
    ?_ ?_ rfl
  · intro j
    refine ⟨Or.inr, ?_⟩
    rintro (rfl | hj)
    · exact h.places.valid _ _ hon
    · exact hj
  · intro m j
    constructor
    · rintro ⟨hm, hw, rfl⟩
      have hm' : (m : ℤ) ≤ (k : ℤ) - 1 := hm
      have hmem : s.At (.free m) (s.table.freeStack m) := by
        refine ⟨?_, hw, rfl⟩
        show (m : ℤ) ≤ s.table.freeTop
        omega
      refine ⟨fun he => ?_, hmem⟩
      have hplace := h.places.unique _ _ _ (he ▸ hmem) hon
      injection hplace with hmk
      omega
    · rintro ⟨hne, hm, hw, rfl⟩
      have hmk : m ≠ k := fun he => hne (by rw [he])
      have hm' : (m : ℤ) ≤ s.table.freeTop := hm
      refine ⟨?_, hw, rfl⟩
      show (m : ℤ) ≤ (k : ℤ) - 1
      omega
  · rw [hpc]
    rfl
  · intro q hq
    exact KvPlace.free_ne_thread k q (h.places.unique _ _ _ hon hq)
  · intro q _
    obtain ⟨hpop, hpush⟩ := h.stands q
    refine ⟨fun pos he => ?_, fun pos he => ?_⟩
    · have := hpop pos he
      show 0 ≤ pos ∧ (k : ℤ) - 1 < pos
      omega
    · have := hpush pos he
      have hne : pos ≠ k := fun hk => hwritten q (hk ▸ he)
      show 0 ≤ pos ∧ pos ≤ (k : ℤ) - 1
      omega
  · refine ⟨fun pos he => ?_, by rintro _ ⟨⟩⟩
    obtain rfl := Option.some.inj he
    exact ⟨hpos, show (k : ℤ) - 1 < k by omega⟩

theorem Owned.enterDel (h : s.Owned chain) (hpc : s.pc p = .idle)
    (hfree : table.freeStack = s.table.freeStack) (htop : table.freeTop = s.table.freeTop)
    (hi : ¬ s.table.Unchained chain i)
    (hun : ∀ j, table.Unchained chain' j ↔ j = i ∨ s.table.Unchained chain j) :
    Owned ⟨table, lockOwner, Function.update s.pc p (.pushLoad b i)⟩ chain' := by
  have hnot : ∀ place, ¬ s.At place i := fun place hat => hi (h.places.valid place i hat)
  refine h.take hfree (htop ▸ h.top_ge) hun rfl ?_ ?_ (fun q => hnot (.thread q)) ?_ ?_ rfl
  · intro k j
    rw [NosKvTable.OnFreeStack, htop]
    refine ⟨fun hat => ⟨?_, hat⟩, And.right⟩
    rintro rfl
    exact hnot (.free k) hat
  · rw [hpc]
    rfl
  · exact fun q _ => htop ▸ h.stands q
  · exact .of_none rfl rfl

/-- A delete raises the top, to a position that it has still to write. -/
theorem Owned.pushStore (h : s.Owned chain) {top : ℤ} (hpc : s.pc p = .pushStore b i top)
    (htop : s.table.freeTop = top) (hread : ∀ q, (s.pc q).popping ≠ some (top + 1)) :
    (s.setTable p { s.table with freeTop := top + 1 } (.pushSlot b i (top + 1))).Owned chain := by
  have hge := h.top_ge
  have hbelow : ∀ q pos, (s.pc q).pushing = some pos → pos ≤ top := fun q pos hq =>
    htop ▸ ((h.stands q).pushing pos hq).2
  have hold : (s.pc p).pushing = none := by rw [hpc]; rfl
  refine ⟨h.places.congr ?_ fun _ => Iff.rfl, by show -1 ≤ top + 1; omega, ?_, ?_⟩
  · rintro (k | q) j
    · show At ⟨_, _, _⟩ _ _ ↔ _
      rw [at_free, written_iff hold]
      refine ⟨fun ⟨hk, ⟨hne, hw⟩, hj⟩ => ⟨?_, hw, hj⟩, fun ⟨hk, hw, hj⟩ => ⟨?_, ⟨?_, hw⟩, hj⟩⟩
      · have hk' : (k : ℤ) ≤ top + 1 := hk
        have hne' : top + 1 ≠ k := fun he => hne (congrArg some he)
        show (k : ℤ) ≤ s.table.freeTop
        omega
      · have hk' : (k : ℤ) ≤ s.table.freeTop := hk
        show (k : ℤ) ≤ top + 1
        omega
      · have hk' : (k : ℤ) ≤ s.table.freeTop := hk
        intro he
        have := Option.some.inj he
        omega
    · show At ⟨_, _, _⟩ _ _ ↔ _
      rw [at_thread]
      split
      · rename_i hq
        subst hq
        simp [At, hpc, NosKvTable.carried]
      · exact Iff.rfl
  · refine forall_update (Q := fun _ pc => Stands (top + 1) pc) ?_ fun q _ => ?_
    · refine ⟨by rintro _ ⟨⟩, fun pos he => ?_⟩
      obtain rfl := Option.some.inj he
      omega
    · obtain ⟨hpop, hpush⟩ := h.stands q
      refine ⟨fun pos he => ?_, fun pos he => ?_⟩
      · have := hpop pos he
        have hne : pos ≠ top + 1 := fun hk => hread q (hk ▸ he)
        omega
      · have := hpush pos he
        omega
  · refine push_unique_update h fun q _ pos he hq => ?_
    obtain rfl := Option.some.inj he
    have := hbelow q _ hq
    omega

theorem Owned.pushSlot (h : s.Owned chain) {pos : ℤ} (hpc : s.pc p = .pushSlot b i pos) :
    (s.setTable p
      { s.table with freeStack := Function.update s.table.freeStack pos.toNat i }
      (.countLoad b false)).Owned chain := by
  have hpush : (s.pc p).pushing = some pos := by rw [hpc]; rfl
  obtain ⟨hpos, hle⟩ := (h.stands p).pushing pos hpush
  obtain ⟨k, rfl⟩ := Int.eq_ofNat_of_zero_le hpos
  have hhas : s.At (.thread p) i := by simp [At, hpc, NosKvTable.carried]
  have hapart : ∀ q ≠ p, (s.pc q).pushing ≠ some (k : ℤ) := fun q hq he =>
    hq (h.push_unique q p k he hpush)
  refine ⟨h.places.put (p := .free k) (i := i) ?_ ?_, h.top_ge, ?_, ?_⟩
  · rintro (m | q) j
    · show At ⟨_, _, _⟩ _ _ ↔ _
      rw [at_free]
      by_cases hm : m = k
      · subst hm
        simp only [Int.toNat_natCast, Function.update_self, and_true]
        constructor
        · rintro ⟨-, -, rfl⟩
          exact Or.inl rfl
        · rintro (rfl | ⟨-, -, hw, -⟩)
          · exact ⟨hle, ⟨nofun, hapart⟩, rfl⟩
          · exact absurd hpush (hw p)
      · have hwritten : (∀ q ≠ p, (s.pc q).pushing ≠ some (m : ℤ)) ↔
            ∀ q, (s.pc q).pushing ≠ some (m : ℤ) := by
          refine ⟨fun hw q => ?_, fun hw q _ => hw q⟩
          by_cases hq : q = p
          · rw [hq, hpush]
            intro he
            have := Option.some.inj he
            omega
          · exact hw q hq
        have hstack : Function.update s.table.freeStack (k : ℤ).toNat i m = s.table.freeStack m :=
          Function.update_of_ne (by simpa using hm) _ _
        simp only [KvPlace.free.injEq, hm, and_false, false_or, hwritten, hstack]
        constructor
        · rintro ⟨hon, ⟨-, hw⟩, rfl⟩
          have hat : s.At (.free m) (s.table.freeStack m) := ⟨hon, hw, rfl⟩
          exact ⟨fun he => KvPlace.free_ne_thread _ p (h.places.unique _ _ _ (he ▸ hat) hhas), hat⟩
        · rintro ⟨-, hon, hw, hj⟩
          exact ⟨hon, ⟨nofun, hw⟩, hj⟩
    · show At ⟨_, _, _⟩ _ _ ↔ _
      rw [at_thread]
      split
      · rename_i hq
        subst hq
        simp [At, hpc, NosKvTable.carried, eq_comm]
      · rename_i hq
        have hcarried : NosKvTable.carried
            { s.table with freeStack := Function.update s.table.freeStack (k : ℤ).toNat i }
            (s.pc q) = s.table.carried (s.pc q) := by
          have hstands := (h.stands q).popping
          cases hpcq : s.pc q <;> try rfl
          rename_i args pos
          rw [hpcq] at hstands
          have := hstands pos rfl
          have hne : pos.toNat ≠ (k : ℤ).toNat := by omega
          exact congrArg some (Function.update_of_ne hne _ _)
        rw [hcarried]
        simp only [reduceCtorEq, and_false, false_or]
        refine ⟨fun hj => ⟨?_, hj⟩, And.right⟩
        rintro rfl
        have hplace := h.places.unique (.thread q) (.thread p) _ hj hhas
        injection hplace with hqp
        exact hq hqp
  · intro j
    refine ⟨Or.inr, ?_⟩
    rintro (rfl | hj)
    · exact h.places.valid _ _ hhas
    · exact hj
  · exact forall_update (Q := fun _ pc => Stands s.table.freeTop pc)
      (.of_none rfl rfl) fun q _ => h.stands q
  · exact push_unique_update h fun q _ pos he => nomatch he

theorem Owned.fill (h : s.Owned chain) (hpc : s.pc p = .fill args i)
    (hstack : table.freeStack = s.table.freeStack) (htop : table.freeTop = s.table.freeTop)
    (hun : ∀ j, table.Unchained chain' j ↔ j ≠ i ∧ s.table.Unchained chain j) :
    Owned ⟨table, lockOwner, Function.update s.pc p (.countLoad b true)⟩ chain' := by
  have hhas : s.At (.thread p) i := by simp [At, hpc, NosKvTable.carried]
  have hold : (s.pc p).pushing = none := by rw [hpc]; rfl
  refine ⟨h.places.remove (i := i) ?_ hun, htop ▸ h.top_ge, ?_, ?_⟩
  · rintro (k | q) j
    · rw [at_free, written_iff hold, hstack, NosKvTable.OnFreeStack, htop]
      constructor
      · rintro ⟨hon, ⟨-, hw⟩, rfl⟩
        have hat : s.At (.free k) (s.table.freeStack k) := ⟨hon, hw, rfl⟩
        exact ⟨fun he => KvPlace.free_ne_thread _ p (h.places.unique _ _ _ (he ▸ hat) hhas), hat⟩
      · rintro ⟨-, hon, hw, hj⟩
        refine ⟨hon, ⟨?_, hw⟩, hj⟩
        rintro ⟨⟩
    · rw [at_thread]
      split
      · rename_i hq
        subst hq
        simp [At, hpc, NosKvTable.carried, eq_comm]
      · rename_i hq
        rw [carried_congr hstack]
        refine ⟨fun hj => ⟨?_, hj⟩, And.right⟩
        rintro rfl
        have hplace := h.places.unique (.thread q) (.thread p) _ hj hhas
        injection hplace with hqp
        exact hq hqp
  · show ∀ q, Stands table.freeTop (Function.update s.pc p _ q)
    rw [htop]
    exact forall_update (Q := fun _ pc => Stands s.table.freeTop pc)
      (.of_none rfl rfl) fun q _ => h.stands q
  · apply push_unique_update h
    rintro q - pos ⟨⟩

end Owned

end KvShared

end GeminiNOS

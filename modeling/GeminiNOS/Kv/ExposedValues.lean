import GeminiNOS.Kv.LockDiscipline
import GeminiNOS.Kv.OtherBuckets

/-! # What the handles expose

A handle keeps its bucket from changing: whoever writes to a record has the lock of
the record's bucket for writing. This takes that a put fills a record that is in no
chain, and so rests on the accesses to the free stack.
-/

namespace GeminiNOS

open Foundations IndexChain

namespace NosKvTable

variable {table table' : NosKvTable} {chain chain' : ℕ → List ℕ} {b i j : ℕ} {key : Bytes}
  {call : KvLockCall}

/-- A call has a key of the bucket, and a value that fits. -/
structure Asked (table : NosKvTable) (call : KvLockCall) (b : ℕ) (key : Bytes) : Prop where
  bucketOf : table.bucketOf key = some b
  key_length : key.length = table.keySize
  valLen_le : ∀ key' val valLen, call = .put key' val valLen → valLen ≤ table.maxValSize

/-- A walk has passed the beginning of the chain, without the key. -/
def Walking (table : NosKvTable) (chain : ℕ → List ℕ) (b : ℕ) (key : Bytes) (prevIdx currIdx : ℕ) :
    Prop :=
  ∃ l₁ l₂, chain b = l₁ ++ l₂ ∧ prevIdx = l₁.getLastD kvInvalidIdx ∧
    IsChain table.next kvInvalidIdx currIdx l₂ ∧ ∀ i ∈ l₁, table.keyAt i ≠ key

/-- The handle names a record in the chain of its bucket, and the record is as it was. -/
structure Exposes (table : NosKvTable) (chain : ℕ → List ℕ) (h : KvHandle) : Prop where
  bucket_lt : h.lock < table.bucketCount
  chained : h.idx ∈ chain h.lock
  bytes : table.valueAt h.idx = h.bytes
  len : (table.getEntry h.idx).valLen = h.len

theorem Asked.congr (h : table.Asked call b key) (hs : table.SameSizes table') :
    table'.Asked call b key :=
  ⟨hs.bucketOf.trans h.bucketOf, h.key_length.trans hs.keySize.symm,
    fun key' val valLen hc => (h.valLen_le key' val valLen hc).trans hs.maxValSize.ge⟩

theorem Walking.congr (h : table.Walking chain b key i j) (hs : table.SameSizes table')
    (hsame : table.SameChain table' chain chain' b) : table'.Walking chain' b key i j := by
  obtain ⟨l₁, l₂, hc, hprev, hchain, habsent⟩ := h
  refine ⟨l₁, l₂, hsame.chain_eq.trans hc, hprev, ?_, fun k hk => ?_⟩
  · exact hchain.congr fun k hk => hsame.next_eq k (by simp [hc, hk])
  · rw [hsame.keyAt hs (by simp [hc, hk])]
    exact habsent k hk

theorem Exposes.congr {h : KvHandle} (he : table.Exposes chain h) (hs : table.SameSizes table')
    (hsame : table.SameChain table' chain chain' h.lock) : table'.Exposes chain' h := by
  constructor
  · exact he.bucket_lt.trans_eq hs.bucketCount.symm
  · rw [hsame.chain_eq]
    exact he.chained
  · exact (hsame.valueAt hs he.chained).trans he.bytes
  · exact (hsame.valLen_eq _ he.chained).trans he.len

theorem Chains.walking_first (h : table.Chains chain) (hb : b < table.bucketCount) :
    table.Walking chain b key kvInvalidIdx (table.buckets b).firstIdx :=
  ⟨[], chain b, rfl, rfl, h.isChain hb, by simp⟩

theorem Walking.absent (h : table.Walking chain b key i kvInvalidIdx) :
    ∀ j ∈ chain b, table.keyAt j ≠ key := by
  obtain ⟨l₁, l₂, hc, -, hchain, habsent⟩ := h
  obtain rfl := hchain.head_eq_null_iff.mp rfl
  rw [hc, List.append_nil]
  exact habsent

theorem Walking.here (h : table.Walking chain b key i j) (hj : j ≠ kvInvalidIdx) :
    ∃ l₁ l₂, chain b = l₁ ++ j :: l₂ ∧ i = l₁.getLastD kvInvalidIdx := by
  obtain ⟨l₁, l₂, hc, hprev, hchain, -⟩ := h
  cases l₂ with
  | nil => exact absurd (isChain_nil.mp hchain) hj
  | cons k l₂ =>
    obtain ⟨rfl, -, -⟩ := hchain
    exact ⟨l₁, l₂, hc, hprev⟩

theorem Walking.pass (h : table.Walking chain b key i j) (hk : key.length = table.keySize)
    (hj : j ≠ kvInvalidIdx) (hne : ¬ table.KeyMatches (table.getEntry j) key) :
    table.Walking chain b key j (table.next j) := by
  obtain ⟨l₁, l₂, hc, -, hchain, habsent⟩ := h
  cases l₂ with
  | nil => exact absurd (isChain_nil.mp hchain) hj
  | cons k l₂ =>
    obtain ⟨rfl, -, htail⟩ := hchain
    refine ⟨l₁ ++ [j], l₂, by simp [hc], by simp, htail, fun m hm => ?_⟩
    rcases List.mem_append.mp hm with hm | hm
    · exact habsent m hm
    · obtain rfl := List.mem_singleton.mp hm
      exact fun he => hne ((keyMatches_iff hk).mpr he)

end NosKvTable

theorem KvLockPc.afterWork_cases (pc pc' : KvPc) :
    (∃ b result, pc' = .unlock b ∧ KvLockPc.afterWork pc pc' = .unlock b result []) ∨
      KvLockPc.afterWork pc pc' = .work pc' := by
  cases pc' with
  | unlock b =>
    cases pc with
    | checkTop args => exact Or.inl ⟨b, _, rfl, rfl⟩
    | _ => exact Or.inl ⟨b, _, rfl, rfl⟩
  | _ => exact Or.inr rfl

/-- What an operation has found out holds. -/
structure KvFrame.Sees (table : NosKvTable) (chain : ℕ → List ℕ) (f : KvFrame) : Prop where
  lock : ∀ b key, f.pc = .lock b key → table.Asked f.call b key
  walk : ∀ b key i j, f.pc = .walk b key i j →
    table.Asked f.call b key ∧ table.Walking chain b key i j

theorem KvFrame.Sees.of_pc {table : NosKvTable} {chain : ℕ → List ℕ} {f : KvFrame}
    (hlock : ∀ b key, f.pc ≠ .lock b key) (hwalk : ∀ b key i j, f.pc ≠ .walk b key i j) :
    f.Sees table chain := by
  constructor
  · exact fun b key hpc => absurd hpc (hlock b key)
  · exact fun b key i j hpc => absurd hpc (hwalk b key i j)

namespace KvLocking

variable {P : Type*}

/-- No handle's record has changed since it was given out. -/
def Unmoved (s : KvLocking P) : Prop :=
  ∀ h ∈ s.handles, s.table.valueAt h.idx = h.bytes ∧ (s.table.getEntry h.idx).valLen = h.len

/-- The conditions on the steps: the accesses to the free stack fit. -/
def Fits [DecidableEq P] (s : KvLocking P) : KvLockAction P → Prop
  | .call _ _ => True
  | .next p => s.shared.StackFits p

/-- The places of the records, the walks and the handles together. -/
structure Exposing (s : KvLocking P) (chain : ℕ → List ℕ) : Prop where
  placed : s.shared.Placed chain
  sees : ∀ p, ∀ f ∈ s.frames p, f.Sees s.table chain
  exposes : ∀ h ∈ s.handles, s.table.Exposes chain h

variable {s s' : KvLocking P} {chain chain' : ℕ → List ℕ} {p q : P} {f f' : KvFrame}
  {rest : List KvFrame} {table : NosKvTable} {pc : KvLockPc} {b : ℕ}

theorem Exposing.unmoved (h : s.Exposing chain) : s.Unmoved := fun x hx =>
  ⟨(h.exposes x hx).bytes, (h.exposes x hx).len⟩

theorem shared_pc (hp : s.frames p = f :: rest) : s.shared.pc p = f.pc.slot := by
  simp [shared, hp]

section Locks

variable [Fintype P]

theorem Accounted.writer_ne (h : s.Accounted) (hq : q ≠ p) (hf : f ∈ s.frames q)
    (hb : f.pc.bucket = some b) : s.writer b ≠ some p := by
  have hheld := (h.noted q f hf).held_some hb
  intro hp
  cases hw : f.call.writes with
  | true =>
    have hmine : s.writer b = some q := by
      rw [h.disciplined.writers b q, holds, List.mem_flatMap]
      exact ⟨f, hf, by simp [hheld, KvLockCall.hold, hw]⟩
    exact hq (Option.some.inj (hmine.symm.trans hp))
  | false =>
    have hmem : KvHold.read b ∈ (s.frames q).flatMap KvFrame.held :=
      List.mem_flatMap.mpr ⟨f, hf, by simp [hheld, KvLockCall.hold, hw]⟩
    have hpos : 0 < reads b (s.frames q) := List.count_pos_iff.mpr hmem
    have hle := le_total (fun _ => reads b) s.frames q
    have hreaders := h.disciplined.readers b
    rw [h.writer_eq_none (by omega)] at hp
    cases hp

/-- The bucket of a live handle has no writer. -/
theorem Accounted.writer_handle (h : s.Accounted) {x : KvHandle} (hx : x ∈ s.handles) :
    s.writer x.lock = none := by
  have hpos : (0 : ℕ) < s.handles.countP fun y => y.lock = x.lock :=
    List.countP_pos_iff.mpr ⟨x, hx, by simp⟩
  have hreaders := h.disciplined.readers x.lock
  exact h.writer_eq_none (by omega)

theorem Accounted.writer_self (h : s.Accounted) (hp : s.frames p = f :: rest)
    (hb : f.pc.bucket = some b) (hw : f.call.writes) : s.writer b = some p := by
  rw [h.disciplined.writers b p, h.holds_eq hp, (h.top_noted hp).held_some hb]
  simp [KvLockCall.hold, hw]

theorem sees_rest (ha : s.Accounted) (hp : s.frames p = f :: rest) :
    ∀ g ∈ rest, g.Sees table chain := by
  intro g hg
  have hc := ha.nested_rest hp g hg
  refine .of_pc (fun b key hpc => ?_) (fun b key i j hpc => ?_) <;> rw [hpc] at hc <;> cases hc

end Locks

theorem placed_unlocked (h : s.Exposing chain) (hidle : s.shared.pc p = .idle)
    (hw : s.writer b = some p) :
    KvShared.Placed { s.shared with lockOwner := Function.update s.writer b none } chain := by
  refine h.placed.relock fun q b' hq => ?_
  have howner := (h.placed.locked.holds q).owner b' hq
  rw [Function.update_of_ne]
  · exact howner
  · rintro rfl
    obtain rfl := Option.some.inj (howner.symm.trans hw)
    rw [hidle] at hq
    cases hq

theorem relocked (hw : s.writer b = some p) :
    Function.update (Function.update s.writer b none) b (some p) = s.writer := by
  rw [Function.update_idem, ← hw, Function.update_eq_self]

variable [DecidableEq P]

theorem shared_eq (hframes : s'.frames = Function.update s.frames p (f :: rest)) :
    s'.shared = ⟨s'.table, s'.writer, Function.update s.shared.pc p f.pc.slot⟩ := by
  have hpc : s'.shared.pc = Function.update s.shared.pc p f.pc.slot := by
    funext q
    simp only [shared, hframes, Function.update_apply]
    split <;> rfl
  rw [← hpc]
  rfl

theorem update_idle (hp : s.frames p = f :: rest) (hidle : f.pc.slot = .idle) :
    Function.update s.shared.pc p .idle = s.shared.pc :=
  Function.update_eq_self_iff.mpr ((shared_pc hp).trans hidle).symm

variable [Fintype P]

/-- A step of one thread keeps what the others see, and what the handles expose. -/
theorem Exposing.update (h : s.Exposing chain) (ha : s.Accounted) (fs : List KvFrame)
    (hframes : s'.frames = Function.update s.frames p fs) (hplaced : s'.shared.Placed chain')
    (hsizes : s.table.SameSizes s'.table)
    (hsame : ∀ b < s.table.bucketCount, s.writer b ≠ some p →
      s.table.SameChain s'.table chain chain' b)
    (hfs : ∀ f ∈ fs, f.Sees s'.table chain')
    (hhandles : ∀ x ∈ s'.handles, x ∈ s.handles ∨ s'.table.Exposes chain' x) :
    s'.Exposing chain' := by
  constructor
  · exact hplaced
  · intro q
    rw [hframes, Function.update_apply]
    split
    · exact hfs
    · rename_i hq
      intro f hf
      have hf' := h.sees q f hf
      constructor
      · exact fun b key hpc => (hf'.lock b key hpc).congr hsizes
      · intro b key i j hpc
        obtain ⟨hasked, hwalk⟩ := hf'.walk b key i j hpc
        have hb := h.placed.locked.chains.geometry.bucketOf_lt hasked.bucketOf
        have hne := ha.writer_ne hq hf (by rw [hpc]; rfl)
        exact ⟨hasked.congr hsizes, hwalk.congr hsizes (hsame b hb hne)⟩
  · intro x hx
    rcases hhandles x hx with hold | hnew
    · have hx' := h.exposes x hold
      have hne : s.writer x.lock ≠ some p := by
        rw [ha.writer_handle hold]
        exact Option.some_ne_none p ∘ Eq.symm
      exact hx'.congr hsizes (hsame _ hx'.bucket_lt hne)
    · exact hnew

theorem Exposing.top (h : s.Exposing chain) (ha : s.Accounted) (hp : s.frames p = f :: rest)
    {writer : ℕ → Option P} {handles released : List KvHandle}
    (hplaced : KvShared.Placed
      ⟨table, writer, Function.update s.shared.pc p f'.pc.slot⟩ chain')
    (hsizes : s.table.SameSizes table)
    (hsame : ∀ b < s.table.bucketCount, s.writer b ≠ some p →
      s.table.SameChain table chain chain' b)
    (hf' : f'.Sees table chain') (hhandles : ∀ x ∈ handles, x ∈ s.handles) :
    Exposing { s with
      table := table
      writer := writer
      frames := Function.update s.frames p (f' :: rest)
      handles := handles
      released := released } chain' := by
  refine h.update ha (f' :: rest) rfl ?_ hsizes hsame ?_ fun x hx => Or.inl (hhandles x hx)
  · rw [shared_eq rfl]
    exact hplaced
  · intro g hg
    rcases List.mem_cons.mp hg with rfl | hg
    · exact hf'
    · exact sees_rest ha hp g hg

theorem Exposing.quiet (h : s.Exposing chain) (ha : s.Accounted) (hp : s.frames p = f :: rest)
    {writer : ℕ → Option P} {handles released : List KvHandle} (hidle : f.pc.slot = .idle)
    (hidle' : f'.pc.slot = .idle) (hplaced : KvShared.Placed ⟨table, writer, s.shared.pc⟩ chain)
    (hsizes : s.table.SameSizes table) (hsame : ∀ b, s.table.SameChain table chain chain b)
    (hf' : f'.Sees table chain) (hhandles : ∀ x ∈ handles, x ∈ s.handles) :
    Exposing { s with
      table := table
      writer := writer
      frames := Function.update s.frames p (f' :: rest)
      handles := handles
      released := released } chain := by
  refine h.top ha hp ?_ hsizes (fun b _ _ => hsame b) hf' hhandles
  rw [hidle', update_idle hp hidle]
  exact hplaced

theorem Exposing.go (h : s.Exposing chain) (ha : s.Accounted) (hp : s.frames p = f :: rest)
    (hidle : f.pc.slot = .idle) (hidle' : pc.slot = .idle)
    (hf' : KvFrame.Sees s.table chain { f with pc := pc }) :
    (s.go p f rest s.table pc).Exposing chain :=
  h.quiet ha hp hidle hidle' h.placed (.refl _) (fun b => .refl _ _ b) hf' fun _ hx => hx

theorem Exposing.check (h : s.Exposing chain) (ha : s.Accounted) (hp : s.frames p = f :: rest)
    (hpc : f.pc = .start) (hs : s.check p f rest = some s') : s'.Exposing chain := by
  have hidle : f.pc.slot = .idle := by
    rw [hpc]
    rfl
  unfold KvLocking.check at hs
  split at hs
  · cases hs
    refine h.go ha hp hidle rfl (.of_pc ?_ ?_)
    · rintro _ _ ⟨⟩
    · rintro _ _ _ _ ⟨⟩
  · obtain ⟨x, hx, rfl⟩ := Option.map_eq_some_iff.mp hs
    refine h.quiet ha hp hidle rfl (h.placed.setReaders _ _) ⟨rfl, rfl, rfl⟩
      (fun b => .of_getEntry rfl fun _ _ => rfl) (.of_pc ?_ ?_) fun _ hy => List.mem_of_mem_erase hy
    · rintro _ _ ⟨⟩
    · rintro _ _ _ _ ⟨⟩
  · split at hs
    · cases hs
      refine h.go ha hp hidle rfl (.of_pc ?_ ?_)
      · rintro _ _ ⟨⟩
      · rintro _ _ _ _ ⟨⟩
    · rename_i key hchecked
      split at hs
      · cases hs
      · rename_i hlen
        obtain ⟨b, hb, rfl⟩ := Option.map_eq_some_iff.mp hs
        refine h.go ha hp hidle rfl ⟨?_, ?_⟩
        · rintro _ _ ⟨⟩
          refine ⟨hb, not_not.mp hlen, fun key' val valLen hcall => ?_⟩
          dsimp only at hcall
          rw [hcall] at hchecked
          simp only [KvLockCall.checked] at hchecked
          split at hchecked
          · cases hchecked
          · omega
        · rintro _ _ _ _ ⟨⟩

theorem Exposing.lock (h : s.Exposing chain) (ha : s.Accounted) (hp : s.frames p = f :: rest)
    {key : Bytes} (hpc : f.pc = .lock b key) (hs : s.lock p f rest b key = some s') :
    s'.Exposing chain := by
  have hidle : f.pc.slot = .idle := by
    rw [hpc]
    rfl
  have hasked := (h.sees p f (by simp [hp])).lock b key hpc
  have hb := h.placed.locked.chains.geometry.bucketOf_lt hasked.bucketOf
  have hwalk : s.table.Walking chain b key kvInvalidIdx (s.table.buckets b).firstIdx :=
    h.placed.locked.chains.walking_first hb
  unfold KvLocking.lock at hs
  dsimp only at hs
  split at hs <;> split at hs <;> cases hs <;> rename_i hfree
  · refine h.quiet ha hp hidle rfl (h.placed.relock fun q b' hq => ?_) (.refl _)
      (fun b => .refl _ _ b) ⟨?_, ?_⟩ fun _ hx => hx
    · have howner := (h.placed.locked.holds q).owner b' hq
      rw [Function.update_of_ne]
      · exact howner
      · rintro rfl
        exact Option.some_ne_none q (howner.symm.trans hfree.1)
    · rintro _ _ ⟨⟩
    · rintro _ _ _ _ ⟨⟩
      exact ⟨hasked, hwalk⟩
  · have hsizes : s.table.SameSizes (s.table.setReaders b ((s.table.buckets b).readers + 1)) :=
      ⟨rfl, rfl, rfl⟩
    refine h.quiet ha hp hidle rfl (h.placed.setReaders _ _) hsizes
      (fun b => .of_getEntry rfl fun _ _ => rfl) ⟨?_, ?_⟩ fun _ hx => hx
    · rintro _ _ ⟨⟩
    · rintro _ _ _ _ ⟨⟩
      exact ⟨hasked.congr hsizes, hwalk.congr hsizes (.of_getEntry rfl fun _ _ => rfl)⟩

theorem Exposing.goUnlock (h : s.Exposing chain) (ha : s.Accounted) (hp : s.frames p = f :: rest)
    (hidle : f.pc.slot = .idle) {result : KvOutcome} {notified : List KvNotification}
    (hplaced : KvShared.Placed { s.shared with table := table } chain)
    (hsizes : s.table.SameSizes table)
    (hsame : ∀ b < s.table.bucketCount, s.writer b ≠ some p →
      s.table.SameChain table chain chain b) :
    (s.go p f rest table (.unlock b result notified)).Exposing chain := by
  refine h.top ha hp ?_ hsizes hsame (.of_pc ?_ ?_) fun _ hx => hx
  · have hpcs := update_idle hp hidle
    change KvShared.Placed ⟨table, s.writer, Function.update s.shared.pc p .idle⟩ chain
    rw [hpcs]
    exact hplaced
  · rintro _ _ ⟨⟩
  · rintro _ _ _ _ ⟨⟩

theorem Exposing.absent (h : s.Exposing chain) (ha : s.Accounted) (hp : s.frames p = f :: rest)
    {key : Bytes} {i : ℕ} (hpc : f.pc = .walk b key i kvInvalidIdx)
    (hs : s.absent p f rest b key = some s') : s'.Exposing chain := by
  have hidle : f.pc.slot = .idle := by
    rw [hpc]
    rfl
  obtain ⟨hasked, hwalk⟩ := (h.sees p f (by simp [hp])).walk b key i _ hpc
  unfold KvLocking.absent at hs
  split at hs <;> cases hs
  · rename_i val valLen hcall
    have hw : s.writer b = some p := by
      refine ha.writer_self hp ?_ ?_
      · rw [hpc]
        rfl
      · rw [hcall]
        rfl
    have hpcs : s.shared.pc p = .idle := (shared_pc hp).trans hidle
    have hargs : KvShared.Insertable s.table chain ⟨b, key, val, valLen⟩ :=
      ⟨hasked.bucketOf, hasked.key_length, hasked.valLen_le _ _ _ hcall, hwalk.absent⟩
    have henter := (placed_unlocked h hpcs hw).enterPut hpcs (Function.update_self ..) hargs
    unfold KvShared.lock at henter
    dsimp only at henter
    rw [relocked hw] at henter
    refine h.top ha hp henter (.refl _) (fun b _ _ => .refl _ _ b) (.of_pc ?_ ?_) fun _ hx => hx
    · rintro _ _ ⟨⟩
    · rintro _ _ _ _ ⟨⟩
  · exact h.goUnlock ha hp hidle h.placed (.refl _) fun b _ _ => .refl _ _ b

theorem Exposing.pop (h : s.Exposing chain) (ha : s.Accounted) (hp : s.frames p = f :: rest)
    (hidle : f.pc.slot = .idle) {handles granted : List KvHandle} {returned : List KvReturn}
    (hhandles : ∀ x ∈ handles, x ∈ s.handles ∨ s.table.Exposes chain x) :
    Exposing { s with
      frames := Function.update s.frames p rest
      handles := handles
      granted := granted
      returned := returned } chain := by
  refine h.update ha rest rfl ?_ (.refl _) (fun b _ _ => .refl _ _ b) (sees_rest ha hp)
    hhandles
  have hslot : (rest.head?.map fun f => f.pc.slot).getD .idle = .idle := by
    cases rest with
    | nil => rfl
    | cons g rest =>
      have hc := ha.nested_rest hp g List.mem_cons_self
      cases hg : g.pc <;> rw [hg] at hc <;> cases hc
      simp [hg, KvLockPc.slot]
  have hpc (q : P) : ((Function.update s.frames p rest q).head?.map fun f => f.pc.slot).getD .idle =
      s.shared.pc q := by
    rw [Function.update_apply]
    split
    · rename_i hq
      rw [hq, hslot, shared_pc hp, hidle]
    · rfl
  change KvShared.Placed ⟨s.table, s.writer, fun q =>
    ((Function.update s.frames p rest q).head?.map fun f => f.pc.slot).getD .idle⟩ chain
  simp only [hpc]
  exact h.placed

theorem Exposing.found (h : s.Exposing chain) (ha : s.Accounted) (hp : s.frames p = f :: rest)
    {key : Bytes} {i j : ℕ} (hpc : f.pc = .walk b key i j) (hj : j ≠ kvInvalidIdx)
    (hs : s.found p f rest b i j = some s') : ∃ chain', s'.Exposing chain' := by
  have hidle : f.pc.slot = .idle := by
    rw [hpc]
    rfl
  have hbucket : f.pc.bucket = some b := by
    rw [hpc]
    rfl
  obtain ⟨hasked, hwalk⟩ := (h.sees p f (by simp [hp])).walk b key i j hpc
  obtain ⟨l₁, l₂, hc, rfl⟩ := hwalk.here hj
  have hchains := h.placed.locked.chains
  have hb := hchains.geometry.bucketOf_lt hasked.bucketOf
  have hmem : j ∈ chain b := by simp [hc]
  have hquiet (result : KvOutcome) : (s.go p f rest s.table (.unlock b result [])).Exposing chain :=
    h.goUnlock ha hp hidle h.placed (.refl _) fun b _ _ => .refl _ _ b
  have hsub (subList : List NosKvSub) :
      (s.go p f rest (s.table.setSubList j subList) (.unlock b ⟨.ok, none⟩ [])).Exposing chain :=
    h.goUnlock ha hp hidle (h.placed.setSubList j subList) ⟨rfl, rfl, rfl⟩ fun b _ _ =>
      NosKvTable.sameChain_setSubList
  unfold KvLocking.found at hs
  dsimp only at hs
  split at hs <;> rename_i hcall
  · cases hs
    have hw := ha.writer_self hp hbucket (by rw [hcall]; rfl)
    have hv := hasked.valLen_le _ _ _ hcall
    refine ⟨chain, h.goUnlock ha hp hidle (h.placed.overwrite hb hmem hv) ⟨rfl, rfl, rfl⟩ ?_⟩
    exact fun b' hb' hne => hchains.sameChain_overwrite hb hmem hb' fun he => hne (he ▸ hw)
  · cases hs
    exact ⟨chain, hquiet _⟩
  · split at hs <;> cases hs
    refine ⟨chain, h.pop ha hp hidle fun x hx => ?_⟩
    rcases List.mem_cons.mp hx with rfl | hx
    · exact Or.inr ⟨hb, hmem, rfl, rfl⟩
    · exact Or.inl hx
  · cases hs
  · split at hs <;> cases hs
    · exact ⟨chain, hquiet _⟩
    · exact ⟨chain, hsub _⟩
  · split at hs <;> cases hs
    · exact ⟨chain, hsub _⟩
    · exact ⟨chain, hquiet _⟩
  · cases hs
    have hw := ha.writer_self hp hbucket (by rw [hcall]; rfl)
    have hpcs : s.shared.pc p = .idle := (shared_pc hp).trans hidle
    have henter := (placed_unlocked h hpcs hw).enterDel hpcs (Function.update_self ..) hb hc
    unfold KvShared.lock at henter
    dsimp only at henter
    rw [relocked hw] at henter
    refine ⟨_, h.top ha hp henter ⟨NosKvTable.keySize_detach, NosKvTable.maxValSize_detach,
      NosKvTable.bucketCount_detach⟩ ?_ (.of_pc ?_ ?_) fun _ hx => hx⟩
    · exact fun b' hb' hne => hchains.sameChain_detach hb hc hb' fun he => hne (he ▸ hw)
    · rintro _ _ ⟨⟩
    · rintro _ _ _ _ ⟨⟩

theorem Exposing.work (h : s.Exposing chain) (ha : s.Accounted) (hp : s.frames p = f :: rest)
    {pc : KvPc} (hpc : f.pc = .work pc) (hunlock : ∀ b, pc ≠ .unlock b)
    (hfit : s.shared.StackFits p) {t : KvShared P} (hs : s.shared.next p pc = some t) :
    ∃ chain', (s.go p f rest t.table (.afterWork pc (t.pc p))).Exposing chain' := by
  have hpcs : s.shared.pc p = pc := by
    rw [shared_pc hp, hpc]
    rfl
  subst hpcs
  obtain ⟨howner, hframe⟩ := KvShared.next_frame hs hunlock
  obtain ⟨chain', hplaced, hsizes, hsame⟩ := h.placed.next hfit hs
  have hsame' : ∀ b < s.table.bucketCount, s.writer b ≠ some p →
      s.table.SameChain t.table chain chain' b := fun b hb hne =>
    hsame b hb fun he => hne ((h.placed.locked.holds p).owner b he)
  rcases KvLockPc.afterWork_cases (s.shared.pc p) (t.pc p) with
    ⟨b, result, hend, he⟩ | he <;> rw [he]
  · refine ⟨chain', h.top ha hp ?_ hsizes hsame' (.of_pc ?_ ?_) fun _ hx => hx⟩
    · have hrelease : KvShared.Placed ⟨t.table, s.writer, Function.update t.pc p .idle⟩ chain' := by
        refine (hplaced.release hend).relock fun q b' hq => ?_
        change (Function.update t.pc p .idle q).bucket = some b' at hq
        rw [Function.update_apply] at hq
        split at hq
        · cases hq
        · have hq' := (hplaced.locked.holds q).owner b' hq
          rw [howner] at hq'
          exact hq'
      rw [hframe, Function.update_idem] at hrelease
      exact hrelease
    · rintro _ _ ⟨⟩
    · rintro _ _ _ _ ⟨⟩
  · refine ⟨chain', h.top ha hp ?_ hsizes hsame' (.of_pc ?_ ?_) fun _ hx => hx⟩
    · change KvShared.Placed ⟨t.table, s.writer, Function.update s.shared.pc p (t.pc p)⟩ chain'
      rw [← hframe]
      change KvShared.Placed ⟨t.table, s.shared.lockOwner, t.pc⟩ chain'
      rw [← howner]
      exact hplaced
    · rintro _ _ ⟨⟩
    · rintro _ _ _ _ ⟨⟩

theorem Exposing.unlock (h : s.Exposing chain) (ha : s.Accounted) (hp : s.frames p = f :: rest)
    {result : KvOutcome} {notified : List KvNotification} (hpc : f.pc = .unlock b result notified) :
    (s.unlock p f rest b result notified).Exposing chain := by
  have hidle : f.pc.slot = .idle := by
    rw [hpc]
    rfl
  unfold KvLocking.unlock
  dsimp only
  split
  · rename_i hw
    have hwriter := ha.writer_self hp (by rw [hpc]; rfl) hw
    refine h.quiet ha hp hidle rfl (placed_unlocked h ((shared_pc hp).trans hidle) hwriter)
      (.refl _) (fun b => .refl _ _ b) (.of_pc ?_ ?_) fun _ hx => hx
    · rintro _ _ ⟨⟩
    · rintro _ _ _ _ ⟨⟩
  · refine h.quiet ha hp hidle rfl (h.placed.setReaders _ _) ⟨rfl, rfl, rfl⟩
      (fun b => .of_getEntry rfl fun _ _ => rfl) (.of_pc ?_ ?_) fun _ hx => hx
    · rintro _ _ ⟨⟩
    · rintro _ _ _ _ ⟨⟩

theorem Exposing.call (h : s.Exposing chain) (ha : s.Accounted) (call : KvLockCall)
    (hready : ∀ f ∈ (s.frames p).head?, f.pc.inCallback) :
    Exposing { s with
      frames := Function.update s.frames p (⟨call, .start, []⟩ :: s.frames p) } chain := by
  have hidle : s.shared.pc p = .idle := by
    cases hframes : s.frames p with
    | nil => simp [shared, hframes]
    | cons f rest =>
      rw [hframes] at hready
      have hc := hready f rfl
      rw [shared_pc hframes]
      cases hf : f.pc <;> rw [hf] at hc <;> cases hc
      rfl
  refine h.update ha (⟨call, .start, []⟩ :: s.frames p) rfl ?_ (.refl _)
    (fun b _ _ => .refl _ _ b) ?_ fun x hx => Or.inl hx
  · rw [shared_eq rfl]
    change KvShared.Placed ⟨s.table, s.writer, Function.update s.shared.pc p .idle⟩ chain
    rw [Function.update_eq_self_iff.mpr hidle.symm]
    exact h.placed
  · intro g hg
    rcases List.mem_cons.mp hg with rfl | hg
    · refine .of_pc ?_ ?_
      · rintro _ _ ⟨⟩
      · rintro _ _ _ _ ⟨⟩
    · exact h.sees p g hg

theorem Exposing.next (h : s.Exposing chain) (ha : s.Accounted) (hp : s.frames p = f :: rest)
    (hfit : s.shared.StackFits p) (hs : s.next p f rest = some s') :
    ∃ chain', s'.Exposing chain' := by
  unfold KvLocking.next at hs
  split at hs <;> rename_i hpc
  · exact ⟨chain, h.check ha hp hpc hs⟩
  · exact ⟨chain, h.lock ha hp hpc hs⟩
  · have hidle : f.pc.slot = .idle := by
      rw [hpc]
      rfl
    split at hs
    · rename_i hnull
      subst hnull
      exact ⟨chain, h.absent ha hp hpc hs⟩
    · rename_i hnull
      split at hs
      · exact h.found ha hp hpc hnull hs
      · rename_i hne
        cases hs
        obtain ⟨hasked, hwalk⟩ := (h.sees p f (by simp [hp])).walk _ _ _ _ hpc
        refine ⟨chain, h.go ha hp hidle rfl ⟨?_, ?_⟩⟩
        · rintro _ _ ⟨⟩
        · rintro _ _ _ _ ⟨⟩
          exact ⟨hasked, hwalk.pass hasked.key_length hnull hne⟩
  · cases hs
  · rename_i hunlock
    obtain ⟨t, ht, rfl⟩ := Option.map_eq_some_iff.mp hs
    exact h.work ha hp hpc (fun b hb => hunlock b hb) hfit ht
  · cases hs
    exact ⟨chain, h.unlock ha hp hpc⟩
  · cases hs
    exact ⟨chain, h.pop ha hp (by rw [hpc]; rfl) fun x hx => Or.inl hx⟩
  · cases hs
    refine ⟨chain, h.go ha hp (by rw [hpc]; rfl) rfl (.of_pc ?_ ?_)⟩
    · rintro _ _ ⟨⟩
    · rintro _ _ _ _ ⟨⟩
  · cases hs
    refine ⟨chain, h.go ha hp (by rw [hpc]; rfl) rfl (.of_pc ?_ ?_)⟩
    · rintro _ _ ⟨⟩
    · rintro _ _ _ _ ⟨⟩

/-- A step that fits keeps what the handles expose. -/
theorem Exposing.step (h : s.Exposing chain) (ha : s.Accounted) {a : KvLockAction P}
    (hfit : s.Fits a) (hs : s.step a = some s') : ∃ chain', s'.Exposing chain' := by
  cases a with
  | call p c =>
    simp only [KvLocking.step] at hs
    split at hs <;> cases hs
    exact ⟨chain, h.call ha c ‹_›⟩
  | next p =>
    simp only [KvLocking.step] at hs
    split at hs
    · cases hs
    · exact h.next ha ‹_› hfit hs

omit [DecidableEq P] [Fintype P] in
theorem exposing_start (h : table.Inv chain) : (start table : KvLocking P).Exposing chain := by
  constructor
  · exact KvShared.Placed.init h
  · rintro _ _ ⟨⟩
  · rintro _ ⟨⟩

/-- In every run the locks are given back, and no callback runs under a lock. When the accesses to
the free stack fit, what a handle exposes does not change. -/
theorem always_disciplined {tables : List NosKvTable} {name : Bytes}
    {keySize maxValSize capacity : ℕ} {memory : Bool} {actions : List (KvLockAction P)}
    (h : nosKvTableCreate tables name keySize maxValSize capacity memory =
      some (tables ++ [table], some tables.length)) :
    Run.Always step Disciplined (start table : KvLocking P) actions ∧
      (capacity * (sizeofNosKvEntry + keySize + maxValSize) < 2 ^ 32 →
        Run.Guarded step Fits (start table : KvLocking P) actions →
          Run.Always step Unmoved (start table : KvLocking P) actions) := by
  obtain ⟨hc, hnew⟩ := NosKvTable.newTable_of_create h
  have hfree : ∀ b, (table.buckets b).readers = 0 := by
    obtain ⟨bucketCount, -, rfl⟩ := Option.map_eq_some_iff.mp hnew
    exact fun _ => rfl
  have haccounted : (start table : KvLocking P).Accounted := accounted_start hfree
  constructor
  · exact Run.always_of_invariant (fun _ _ _ ha hs => ha.step hs) (fun _ ha => ha.disciplined)
      haccounted
  · intro hfit hsteps
    have hexposing : (start table : KvLocking P).Exposing fun _ => [] :=
      exposing_start (NosKvTable.inv_newTable hc hfit hnew)
    refine Run.always_of_guarded (I := fun s => s.Accounted ∧ ∃ chain, s.Exposing chain) ?_ ?_
      ⟨haccounted, _, hexposing⟩ hsteps
    · rintro s a s' ⟨ha, chain, hs⟩ hfits hstep
      exact ⟨ha.step hstep, hs.step ha hfits hstep⟩
    · rintro s ⟨-, chain, hs⟩
      exact hs.unmoved

/-- A put of another key between a read by pointer and its release. -/
theorem always_disciplined_two_threads : ∃ table,
    nosKvTableCreate [] [107, 118] 1 8 2 true = some ([] ++ [table], some 0) ∧
      Run.Always step (fun s : KvLocking Bool => s.Disciplined) (start table)
        ([.call true (.getPtr (some [1]) true true true 64)] ++ List.replicate 3 (.next true)) ∧
      Run.Always step (fun s : KvLocking Bool => s.Unmoved) (start table)
        ([.call false (.put (some [1]) (some [7]) 1)] ++ List.replicate 12 (.next false) ++
          [.call true (.getPtr (some [1]) true true true 64)] ++ List.replicate 3 (.next true) ++
          [.call false (.put (some [2]) none 0)] ++ List.replicate 12 (.next false) ++
          [.call true (.releasePtr (some 64))] ++ List.replicate 2 (.next true)) := by
  have hcreate : nosKvTableCreate [] [107, 118] 1 8 2 true =
      some ([] ++ [(newTable [107, 118] 1 8 2).get rfl], some ([] : List NosKvTable).length) := rfl
  refine ⟨(newTable [107, 118] 1 8 2).get rfl, hcreate, ?_, ?_⟩
  · exact (always_disciplined hcreate).1
  · refine (always_disciplined hcreate).2 (by decide) ?_
    iterate 6 refine .cons rfl trivial ?_
    refine .cons rfl ⟨rfl, by decide, nofun⟩ ?_
    iterate 6 refine .cons rfl trivial ?_
    iterate 10 refine .cons rfl trivial ?_
    refine .cons rfl ⟨rfl, by decide, nofun⟩ ?_
    iterate 6 refine .cons rfl trivial ?_
    iterate 3 refine .cons rfl trivial ?_
    trivial

/-- Two puts in different buckets take the same record. One of them links it, and while a handle
exposes it, the other fills it. -/
theorem not_unmoved_after_two_puts : ∃ table,
    nosKvTableCreate [] [107, 118] 1 8 1 true = some ([] ++ [table], some 0) ∧
      ¬ Run.Always step (fun s : KvLocking Bool => s.Disciplined ∧ s.Unmoved) (start table)
        ([.call false (.put (some [1]) (some [7]) 1)] ++ List.replicate 5 (.next false) ++
          [.call true (.put (some [2]) (some [9]) 1)] ++ List.replicate 5 (.next true) ++
          List.replicate 2 (.next false) ++ List.replicate 7 (.next true) ++
          [.call true (.getPtr (some [2]) true true true 64)] ++
          List.replicate 3 (.next true) ++ [.next false]) := by
  refine ⟨(newTable [107, 118] 1 8 1).get rfl, rfl, fun h => ?_⟩
  obtain ⟨s, ⟨-, hunmoved⟩, hread⟩ := h.exists_last (fun s => (s.handles, s.table.valueAt 0))
    ([⟨64, 159, 0, [9], 1⟩], [7]) (by decide +kernel)
  obtain ⟨hhandles, hvalue⟩ := Prod.mk.inj hread
  have hkept := (hunmoved ⟨64, 159, 0, [9], 1⟩ (hhandles ▸ List.mem_cons_self)).1
  rw [hvalue] at hkept
  exact absurd hkept (by decide)

end KvLocking

end GeminiNOS

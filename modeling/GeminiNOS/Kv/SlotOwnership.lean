import GeminiNOS.Kv.RecordPlaces

/-! # Runs of puts and deletes by many threads

Steps that fit keep every record in one place and the counter right, so that a
table without calls in progress is divided as after calls made one by one. Two
puts whose steps do not fit can link one record in two chains.
-/

namespace GeminiNOS

open Foundations IndexChain

namespace NosKvTable

variable {table : NosKvTable} {chain : ℕ → List ℕ} {b i j : ℕ} {l₁ l₂ : List ℕ} {args : KvInsert}
  {key : Bytes} {val : Option Bytes} {valLen : ℕ}

theorem liveKeys_linkNew (hb : args.bucket < table.bucketCount) :
    (table.linkNew args i).liveKeys
        (Function.update chain args.bucket (i :: chain args.bucket)) =
      table.liveKeys chain + 1 := by
  have hupdate : table.liveKeys (Function.update chain args.bucket (i :: chain args.bucket)) +
      (chain args.bucket).length = table.liveKeys chain + (i :: chain args.bucket).length :=
    liveKeys_update hb _
  rw [List.length_cons] at hupdate
  change table.liveKeys _ = _
  omega

theorem liveKeys_detach (hb : b < table.bucketCount) (hc : chain b = l₁ ++ i :: l₂) :
    (table.detach b (l₁.getLastD kvInvalidIdx) i).liveKeys (chainDelete chain b l₁ l₂) + 1 =
      table.liveKeys chain := by
  have hupdate : table.liveKeys (Function.update chain b (l₁ ++ l₂)) + (chain b).length =
      table.liveKeys chain + (l₁ ++ l₂).length := liveKeys_update hb _
  have hlen : (chain b).length = (l₁ ++ l₂).length + 1 := by
    rw [hc]
    simp only [List.length_append, List.length_cons]
    omega
  have hsame : (table.detach b (l₁.getLastD kvInvalidIdx) i).liveKeys
      (chainDelete chain b l₁ l₂) = table.liveKeys (Function.update chain b (l₁ ++ l₂)) := by
    unfold liveKeys
    rw [bucketCount_detach]
    rfl
  omega

theorem Inv.liveKeys_eq (h : table.Inv chain) :
    (table.liveKeys chain : ℤ) = table.capacity - (table.freeTop + 1) := by
  have htop := h.top_ge
  have hon {k : ℕ} : k ∈ Finset.range (table.freeTop + 1).toNat ↔ table.OnFreeStack k := by
    rw [Finset.mem_range, OnFreeStack]
    omega
  let chained := (Finset.range table.bucketCount).biUnion fun b => (chain b).toFinset
  let free := (Finset.range (table.freeTop + 1).toNat).image table.freeStack
  have hchained : chained.card = table.liveKeys chain := by
    rw [Finset.card_biUnion]
    · refine Finset.sum_congr rfl fun b hb => ?_
      exact List.toFinset_card_of_nodup (h.isChain b (Finset.mem_range.mp hb)).nodup
    · intro b hb b' hb' hne
      refine Finset.disjoint_left.mpr fun i hi hi' => hne ?_
      exact h.chain_eq (Finset.mem_range.mp hb) (Finset.mem_range.mp hb')
        (List.mem_toFinset.mp hi) (List.mem_toFinset.mp hi')
  have hfree : free.card = (table.freeTop + 1).toNat := by
    rw [Finset.card_image_of_injOn, Finset.card_range]
    intro k hk m hm he
    exact h.free_inj k m (hon.mp hk) (hon.mp hm) he
  have hdisjoint : Disjoint chained free := by
    refine Finset.disjoint_left.mpr fun i hi hi' => ?_
    obtain ⟨b, hb, hmem⟩ := Finset.mem_biUnion.mp hi
    obtain ⟨k, hk, rfl⟩ := Finset.mem_image.mp hi'
    exact h.free_unused k (hon.mp hk) b (Finset.mem_range.mp hb) (List.mem_toFinset.mp hmem)
  have hall : chained ∪ free = Finset.range table.capacity := by
    ext i
    rw [Finset.mem_union, Finset.mem_biUnion, Finset.mem_image, Finset.mem_range]
    constructor
    · rintro (⟨b, hb, hmem⟩ | ⟨k, hk, rfl⟩)
      · exact h.used_lt b (Finset.mem_range.mp hb) i (List.mem_toFinset.mp hmem)
      · exact h.free_lt k (hon.mp hk)
    · intro hi
      rcases h.cover i hi with ⟨b, hb, hmem⟩ | ⟨k, hk, rfl⟩
      · exact Or.inl ⟨b, Finset.mem_range.mpr hb, List.mem_toFinset.mpr hmem⟩
      · exact Or.inr ⟨k, hon.mpr hk, rfl⟩
  have hcard := Finset.card_union_of_disjoint hdisjoint
  rw [hall, Finset.card_range, hchained, hfree] at hcard
  omega

theorem insertNew_eq : table.insertNew b key val valLen =
    { table.linkNew ⟨b, key, val, valLen⟩ table.newIdx with
      freeTop := table.freeTop - 1
      usedCount := countedFrom table.usedCount true } := by
  simp only [insertNew, linkNew, newIdx, countedFrom, setEntry, if_true]

/-- The table is divided, and the counter is the number of live keys. -/
def SlotsKept (table : NosKvTable) : Prop :=
  ∃ chain, table.Divided chain ∧ table.usedCount = table.liveKeys chain

end NosKvTable

namespace KvShared

variable {P : Type*} [Fintype P] {s s' : KvShared P} {chain chain' : ℕ → List ℕ}
  {p : P} {pc : KvPc} {args : KvInsert} {table : NosKvTable} {b i : ℕ} {l₁ l₂ : List ℕ}
  {lockOwner : ℕ → Option P} {inserted : Bool}

/-- The locks, the places of the records and the counter together. -/
structure Sound (s : KvShared P) (chain : ℕ → List ℕ) : Prop where
  locked : s.Locked chain
  owned : s.Owned chain
  counted : s.Counted chain
  usedCount_lt : s.table.usedCount < 2 ^ 32

theorem Sound.placed (h : s.Sound chain) : s.Placed chain := ⟨h.locked, h.owned⟩

theorem Sound.overwrite (h : s.Sound chain) {val : Option Bytes} {valLen : ℕ}
    (hb : b < s.table.bucketCount) (hi : i ∈ chain b) (hv : valLen ≤ s.table.maxValSize) :
    Sound { s with table := s.table.overwrite i val valLen } chain := by
  have hplaced : Placed { s with table := s.table.overwrite i val valLen } chain :=
    h.placed.overwrite hb hi hv
  constructor
  · exact hplaced.locked
  · exact hplaced.owned
  · exact h.counted
  · exact h.usedCount_lt

theorem Quiescent.total_eq_zero (h : s.Quiescent) {amount : KvPc → ℕ} (ha : amount .idle = 0) :
    total (fun _ => amount) s.pc = 0 := by
  refine Finset.sum_eq_zero fun p _ => ?_
  rw [h p]
  exact ha

theorem Sound.inv (h : s.Sound chain) (hquiet : s.Quiescent) : s.table.Inv chain := by
  have hunwritten (k : ℕ) : ∀ q, (s.pc q).pushing ≠ some (k : ℤ) := by
    intro q
    rw [hquiet q]
    simp [KvPc.pushing]
  have hfree {k : ℕ} (hk : s.table.OnFreeStack k) : s.At (.free k) (s.table.freeStack k) :=
    ⟨hk, hunwritten k, rfl⟩
  obtain ⟨_, _, _, hinv⟩ := h.locked.chains
  refine { hinv with
    geometry := h.locked.chains.geometry
    top_ge := h.owned.top_ge
    free_lt := fun k hk => (h.owned.places.valid _ _ (hfree hk)).1
    free_inj := fun k l hk hl he => ?_
    free_unused := fun k hk => (h.owned.places.valid _ _ (hfree hk)).2
    cover := fun i hi => ?_ }
  · have hplace := h.owned.places.unique _ _ _ (hfree hk) (he ▸ hfree hl)
    injection hplace
  · by_cases hout : ∀ b < s.table.bucketCount, i ∉ chain b
    · obtain ⟨k | q, hat⟩ := h.owned.places.placed i ⟨hi, hout⟩
      · exact Or.inr ⟨k, hat.1, hat.2.2⟩
      · simp [At, hquiet q, NosKvTable.carried] at hat
    · simp only [not_forall, not_not, exists_prop] at hout
      exact Or.inl hout

/-- Without calls in progress the table is divided, and the counter is right. -/
theorem Sound.slotsKept (h : s.Sound chain) (hquiet : s.Quiescent) : s.table.SlotsKept := by
  have hinv := h.inv hquiet
  have hlive := hinv.liveKeys_eq
  have htop := hinv.top_ge
  have hcap := hinv.capacity_lt
  have hlt := h.usedCount_lt
  have hcounted := h.counted
  unfold Counted at hcounted
  rw [hquiet.total_eq_zero rfl, hquiet.total_eq_zero rfl] at hcounted
  have heq : s.table.usedCount = s.table.liveKeys chain := by omega
  refine ⟨chain, hinv.divided ?_, heq⟩
  unfold NosKvTable.UsedCounted
  omega

theorem sound_init (h : table.Inv chain) (hlive : table.usedCount = table.liveKeys chain) :
    (init table : KvShared P).Sound chain := by
  have hlt := h.capacity_lt
  have htop := h.top_ge
  have hlive' := h.liveKeys_eq
  have hplaced : (init table : KvShared P).Placed chain := .init h
  constructor
  · exact hplaced.locked
  · exact hplaced.owned
  · have hquiet : (init table : KvShared P).Quiescent := fun _ => rfl
    unfold Counted
    rw [hquiet.total_eq_zero rfl, hquiet.total_eq_zero rfl]
    change ((table.usedCount : ℤ) + 0 - (table.liveKeys chain + 0)) % 2 ^ 32 = 0
    omega
  · change table.usedCount < 2 ^ 32
    omega

variable [DecidableEq P]

theorem Counted.update (h : s.Counted chain)
    (hpays : (((table.usedCount : ℤ) - s.table.usedCount) + (pc.owesInsert - (s.pc p).owesInsert) -
      (table.liveKeys chain' - s.table.liveKeys chain) -
        (pc.owesDelete - (s.pc p).owesDelete)) % 2 ^ 32 = 0) :
    Counted ⟨table, lockOwner, Function.update s.pc p pc⟩ chain' := by
  have hins := total_update (fun _ => KvPc.owesInsert) s.pc p pc
  have hdel := total_update (fun _ => KvPc.owesDelete) s.pc p pc
  unfold Counted at *
  dsimp only at hins hdel ⊢
  omega

theorem Sound.go (h : s.Sound chain) {old : KvPc} (hpc : s.pc p = old)
    (hbucket : pc.bucket = old.bucket)
    (hins : ∀ args, pc.inserting = some args → old.inserting = some args)
    (hcar : s.table.carried pc = s.table.carried old) (hpop : pc.popping = none)
    (hpush : pc.pushing = none) (hold : old.pushing = none)
    (howesInsert : pc.owesInsert = old.owesInsert)
    (howesDelete : pc.owesDelete = old.owesDelete) : (s.setPc p pc).Sound chain := by
  have hplaced := h.placed.go hpc hbucket hins hcar hpop hpush hold
  subst hpc
  constructor
  · exact hplaced.locked
  · exact hplaced.owned
  · exact h.counted.update (by simp [howesInsert, howesDelete])
  · exact h.usedCount_lt

theorem Sound.popStore (h : s.Sound chain) {top : ℤ} (hpc : s.pc p = .popStore args top)
    (hfit : s.Fits (.next p)) :
    (s.setTable p { s.table with freeTop := top - 1 } (.popSlot args top)).Sound chain := by
  have hplaced := h.placed.popStore hpc hfit.stack
  constructor
  · exact hplaced.locked
  · exact hplaced.owned
  · refine h.counted.update ?_
    rw [hpc]
    simp [KvPc.owesInsert, KvPc.owesDelete, NosKvTable.liveKeys]
  · exact h.usedCount_lt

theorem Sound.pushStore (h : s.Sound chain) {top : ℤ} (hpc : s.pc p = .pushStore b i top)
    (hfit : s.Fits (.next p)) :
    (s.setTable p { s.table with freeTop := top + 1 } (.pushSlot b i (top + 1))).Sound chain := by
  have hplaced := h.placed.pushStore hpc hfit.stack
  constructor
  · exact hplaced.locked
  · exact hplaced.owned
  · refine h.counted.update ?_
    rw [hpc]
    simp [KvPc.owesInsert, KvPc.owesDelete, NosKvTable.liveKeys]
  · exact h.usedCount_lt

theorem Sound.pushSlot (h : s.Sound chain) {pos : ℤ} (hpc : s.pc p = .pushSlot b i pos) :
    (s.setTable p
      { s.table with freeStack := Function.update s.table.freeStack pos.toNat i }
      (.countLoad b false)).Sound chain := by
  have hplaced := h.placed.pushSlot hpc
  constructor
  · exact hplaced.locked
  · exact hplaced.owned
  · refine h.counted.update ?_
    rw [hpc]
    simp [KvPc.owesInsert, KvPc.owesDelete, NosKvTable.liveKeys]
  · exact h.usedCount_lt

theorem Sound.fill (h : s.Sound chain) (hpc : s.pc p = .fill args i) :
    (s.setTable p (s.table.linkNew args i) (.countLoad args.bucket true)).Sound
      (Function.update chain args.bucket (i :: chain args.bucket)) := by
  have hplaced := h.placed.fill hpc
  have hb : args.bucket < s.table.bucketCount := (h.locked.holds p).bucket_lt _ (by rw [hpc]; rfl)
  constructor
  · exact hplaced.locked
  · exact hplaced.owned
  · refine h.counted.update ?_
    rw [hpc, NosKvTable.liveKeys_linkNew hb]
    simp [KvPc.owesInsert, KvPc.owesDelete, NosKvTable.linkNew, NosKvTable.setEntry]
  · exact h.usedCount_lt

theorem Sound.countStore (h : s.Sound chain) {usedCount : ℕ}
    (hpc : s.pc p = .countStore b inserted usedCount) (hfit : s.Fits (.next p)) :
    (s.setTable p { s.table with usedCount := NosKvTable.countedFrom usedCount inserted }
      (.unlock b)).Sound chain := by
  have hplaced : (s.setTable p
      { s.table with usedCount := NosKvTable.countedFrom usedCount inserted }
      (.unlock b)).Placed chain := h.placed.countStore hpc
  simp only [Fits, hpc] at hfit
  subst hfit
  constructor
  · exact hplaced.locked
  · exact hplaced.owned
  · refine h.counted.update ?_
    rw [hpc]
    cases inserted
    · simp only [NosKvTable.countedFrom, Bool.false_eq_true, if_false, KvPc.owesInsert,
        KvPc.owesDelete, NosKvTable.liveKeys, u32]
      omega
    · simp only [NosKvTable.countedFrom, if_true, KvPc.owesInsert, KvPc.owesDelete,
        NosKvTable.liveKeys, u32]
      omega
  · show NosKvTable.countedFrom _ inserted < 2 ^ 32
    unfold NosKvTable.countedFrom
    split <;> exact Nat.mod_lt _ (by decide)

theorem Sound.release (h : s.Sound chain) (hpc : s.pc p = .unlock b) :
    (s.release p b).Sound chain := by
  have hplaced := h.placed.release hpc
  constructor
  · exact hplaced.locked
  · exact hplaced.owned
  · refine h.counted.update ?_
    rw [hpc]
    simp [KvPc.owesInsert, KvPc.owesDelete]
  · exact h.usedCount_lt

/-- What a thread does in a call keeps the invariant, as long as it fits. -/
theorem Sound.next (h : s.Sound chain) (hfit : s.Fits (.next p))
    (hs : s.next p (s.pc p) = some s') : ∃ chain', s'.Sound chain' := by
  cases hpc : s.pc p with
  | idle =>
    rw [hpc] at hs
    cases hs
  | checkTop args =>
    rw [hpc] at hs
    obtain rfl := Option.some.inj hs
    refine ⟨chain, ?_⟩
    split
    · exact h.go hpc rfl (by rintro _ ⟨⟩) rfl rfl rfl rfl rfl rfl
    · exact h.go hpc rfl (fun _ ha => ha) rfl rfl rfl rfl rfl rfl
  | popLoad args =>
    rw [hpc] at hs
    obtain rfl := Option.some.inj hs
    refine ⟨chain, ?_⟩
    exact h.go hpc rfl (fun _ ha => ha) rfl rfl rfl rfl rfl rfl
  | popStore args top =>
    rw [hpc] at hs
    obtain rfl := Option.some.inj hs
    exact ⟨chain, h.popStore hpc hfit⟩
  | popSlot args pos =>
    rw [hpc] at hs
    simp only [KvShared.next] at hs
    split at hs
    · cases hs
    · obtain rfl := Option.some.inj hs
      refine ⟨chain, ?_⟩
      exact h.go hpc rfl (fun _ ha => ha) rfl rfl rfl rfl rfl rfl
  | fill args i =>
    rw [hpc] at hs
    obtain rfl := Option.some.inj hs
    exact ⟨_, h.fill hpc⟩
  | pushLoad b i =>
    rw [hpc] at hs
    obtain rfl := Option.some.inj hs
    refine ⟨chain, ?_⟩
    exact h.go hpc rfl (by rintro _ ⟨⟩) rfl rfl rfl rfl rfl rfl
  | pushStore b i top =>
    rw [hpc] at hs
    obtain rfl := Option.some.inj hs
    exact ⟨chain, h.pushStore hpc hfit⟩
  | pushSlot b i pos =>
    rw [hpc] at hs
    simp only [KvShared.next] at hs
    split at hs
    · cases hs
    · obtain rfl := Option.some.inj hs
      exact ⟨chain, h.pushSlot hpc⟩
  | countLoad b inserted =>
    rw [hpc] at hs
    obtain rfl := Option.some.inj hs
    refine ⟨chain, ?_⟩
    cases inserted <;> exact h.go hpc rfl (by rintro _ ⟨⟩) rfl rfl rfl rfl rfl rfl
  | countStore b inserted usedCount =>
    rw [hpc] at hs
    obtain rfl := Option.some.inj hs
    exact ⟨chain, h.countStore hpc hfit⟩
  | unlock b =>
    rw [hpc] at hs
    obtain rfl := Option.some.inj hs
    exact ⟨chain, h.release hpc⟩

theorem Sound.enterPut (h : s.Sound chain) (hidle : s.pc p = .idle)
    (hfree : s.lockOwner args.bucket = none) (hargs : Insertable s.table chain args) :
    (s.lock p args.bucket s.table (.checkTop args)).Sound chain := by
  have hplaced := h.placed.enterPut hidle hfree hargs
  constructor
  · exact hplaced.locked
  · exact hplaced.owned
  · refine h.counted.update ?_
    rw [hidle]
    simp [KvPc.owesInsert, KvPc.owesDelete]
  · exact h.usedCount_lt

theorem Sound.enterDel (h : s.Sound chain) (hidle : s.pc p = .idle)
    (hfree : s.lockOwner b = none) (hb : b < s.table.bucketCount) (hc : chain b = l₁ ++ i :: l₂) :
    (s.lock p b (s.table.detach b (l₁.getLastD kvInvalidIdx) i) (.pushLoad b i)).Sound
      (NosKvTable.chainDelete chain b l₁ l₂) := by
  have hplaced := h.placed.enterDel hidle hfree hb hc
  constructor
  · exact hplaced.locked
  · exact hplaced.owned
  · refine h.counted.update ?_
    have hlive := NosKvTable.liveKeys_detach hb hc
    rw [hidle, NosKvTable.usedCount_detach]
    simp only [KvPc.owesInsert, KvPc.owesDelete]
    omega
  · exact NosKvTable.usedCount_detach.trans_lt h.usedCount_lt

theorem Sound.enter (h : s.Sound chain) {call : KvSlotCall} (hidle : s.pc p = .idle)
    (hlen : call.valLen ≤ s.table.maxValSize) (hk : call.key.length = s.table.keySize)
    (hb : s.table.bucketOf call.key = some b) (hfree : s.lockOwner b = none)
    (hs : s.enter p b call = some s') : ∃ chain', s'.Sound chain' := by
  have hlt := h.locked.chains.geometry.bucketOf_lt hb
  cases call with
  | put key val valLen =>
    simp only [KvSlotCall.key] at hk hb
    rcases h.locked.chains.lookup hk hlt with ⟨hw, habsent⟩ | ⟨l₁, i, l₂, hc, -, hw⟩ <;>
      simp only [KvShared.enter, hw] at hs <;> obtain rfl := Option.some.inj hs
    · have hargs : Insertable s.table chain ⟨b, key, val, valLen⟩ := ⟨hb, hk, hlen, habsent⟩
      exact ⟨chain, h.enterPut hidle hfree hargs⟩
    · exact ⟨chain, h.overwrite hlt (by simp [hc]) hlen⟩
  | del key =>
    simp only [KvSlotCall.key] at hk hb
    rcases h.locked.chains.lookup hk hlt with ⟨hw, -⟩ | ⟨l₁, i, l₂, hc, -, hw⟩ <;>
      simp only [KvShared.enter, hw] at hs <;> obtain rfl := Option.some.inj hs
    · exact ⟨chain, h⟩
    · exact ⟨_, h.enterDel hidle hfree hlt hc⟩

theorem Sound.step (h : s.Sound chain) {a : KvAction P} (hfit : s.Fits a)
    (hs : s.step a = some s') : ∃ chain', s'.Sound chain' := by
  cases a with
  | call p call =>
    simp only [KvShared.step] at hs
    split at hs
    · rename_i hidle
      split at hs
      · obtain rfl := Option.some.inj hs
        exact ⟨chain, h⟩
      · split at hs
        · cases hs
        · rename_i hlen hk
          obtain ⟨b, hb, hs⟩ := Option.bind_eq_some_iff.mp hs
          split at hs
          · cases hs
          · rename_i hlock
            rw [not_or, Option.not_isSome_iff_eq_none] at hlock
            exact h.enter hidle (Nat.le_of_not_lt hlen) (not_not.mp hk) hb hlock.1 hs
    · cases hs
  | next p => exact h.next hfit hs

section Alone

variable {key : Bytes} {val : Option Bytes} {valLen : ℕ} {st : NosStatus} {table' : NosKvTable}
  {notified : List KvNotification}

omit [Fintype P]

/-- A put without other calls in progress does what `nos_kv_put` does to the table. -/
theorem exec_put_alone (hidle : s.pc p = .idle) (hfree : ∀ b, s.lockOwner b = none)
    (hk : key.length = s.table.keySize)
    (hput : s.table.nosKvPut key val valLen = some (st, table', notified)) :
    ∃ n, Run.exec step s (.call p (.put key val valLen) :: List.replicate n (.next p)) =
      some { s with table := table' } := by
  unfold NosKvTable.nosKvPut at hput
  split at hput
  · rename_i hlen
    cases hput
    exact ⟨0, by simp [step, hidle, KvSlotCall.valLen, hlen]⟩
  rename_i hlen
  obtain ⟨b, hb, hput⟩ := Option.bind_eq_some_iff.mp hput
  split at hput
  · cases hput
  rename_i hreaders
  have hcall : s.step (.call p (.put key val valLen)) = s.enter p b (.put key val valLen) := by
    simp [step, hidle, KvSlotCall.valLen, KvSlotCall.key, hlen, hk, hb, hreaders, hfree]
  simp only [Run.exec_cons, hcall, enter]
  cases hw : s.table.lookup b key with
  | endless =>
    rw [hw] at hput
    cases hput
  | found prev i =>
    rw [hw] at hput
    cases hput
    exact ⟨0, rfl⟩
  | absent =>
    simp only [hw] at hput
    split at hput <;> rename_i htop <;> cases hput
    · refine ⟨2, ?_⟩
      simp [List.replicate, step, lock, KvShared.next, setPc, release, htop, hidle, hfree]
    · refine ⟨8, ?_⟩
      rw [NosKvTable.insertNew_eq]
      simp [List.replicate, step, lock, KvShared.next, setPc, setTable, release, htop, hidle,
        hfree, NosKvTable.newIdx, NosKvTable.linkNew, NosKvTable.setEntry, NosKvTable.getEntry,
        NosKvTable.entryOffset, NosKvTable.storeVal]

/-- A delete without other calls in progress does what `nos_kv_del` does to the table. -/
theorem exec_del_alone (hidle : s.pc p = .idle) (hfree : ∀ b, s.lockOwner b = none)
    (hk : key.length = s.table.keySize) (htop : -1 ≤ s.table.freeTop)
    (hdel : s.table.nosKvDel key = some (st, table')) :
    ∃ n, Run.exec step s (.call p (.del key) :: List.replicate n (.next p)) =
      some { s with table := table' } := by
  obtain ⟨b, hb, hdel⟩ := Option.bind_eq_some_iff.mp hdel
  split at hdel
  · cases hdel
  rename_i hreaders
  have hcall : s.step (.call p (.del key)) = s.enter p b (.del key) := by
    simp [step, hidle, KvSlotCall.valLen, KvSlotCall.key, hk, hb, hreaders, hfree]
  simp only [Run.exec_cons, hcall, enter]
  split at hdel
  · cases hdel
  · rename_i hw
    cases hdel
    exact ⟨0, by simp [hw]⟩
  · rename_i hw
    cases hdel
    refine ⟨6, ?_⟩
    rw [NosKvTable.delete_eq]
    have hpos : ¬ s.table.freeTop + 1 < 0 := by omega
    simp [hw, List.replicate, step, lock, KvShared.next, setPc, setTable, release, hidle, hfree,
      hpos]

end Alone

/-- In a run whose steps fit, the table keeps its records whenever no call is in progress. -/
theorem always_slotsKept {tables : List NosKvTable} {name : Bytes}
    {keySize maxValSize capacity : ℕ} {memory : Bool} {actions : List (KvAction P)}
    (h : nosKvTableCreate tables name keySize maxValSize capacity memory =
      some (tables ++ [table], some tables.length))
    (hfit : capacity * (sizeofNosKvEntry + keySize + maxValSize) < 2 ^ 32)
    (hsteps : Run.Guarded step Fits (init table) actions) :
    Run.Always step (fun s : KvShared P => s.Quiescent → s.table.SlotsKept) (init table)
      actions := by
  obtain ⟨hc, hnew⟩ := NosKvTable.newTable_of_create h
  have hinv := NosKvTable.inv_newTable hc hfit hnew
  have hzero : table.usedCount = 0 := by
    obtain ⟨bucketCount, -, rfl⟩ := Option.map_eq_some_iff.mp hnew
    rfl
  have hinit : (init table : KvShared P).Sound fun _ => [] :=
    sound_init hinv (by simp [hzero, NosKvTable.liveKeys])
  refine Run.always_of_guarded (I := fun s => ∃ chain, s.Sound chain) ?_ ?_ ⟨_, hinit⟩ hsteps
  · rintro s a s' ⟨chain, hsound⟩ hfits hs
    exact hsound.step hfits hs
  · rintro s ⟨chain, hsound⟩ hquiet
    exact hsound.slotsKept hquiet

/-- A put and a delete of one key by two threads, with a put of another key between the lookup and
the first access to the free stack. -/
theorem always_slotsKept_two_threads : ∃ table,
    nosKvTableCreate [] [107, 118] 1 8 2 true = some ([] ++ [table], some 0) ∧
      Run.Always step (fun s : KvShared Bool => s.Quiescent → s.table.SlotsKept) (init table)
        ([.call false (.put [1] (some [7]) 1)] ++ List.replicate 8 (.next false) ++
          [.call true (.put [2] none 0), .call false (.del [1])] ++
          List.replicate 6 (.next false) ++ List.replicate 8 (.next true)) := by
  have hcreate : nosKvTableCreate [] [107, 118] 1 8 2 true =
      some ([] ++ [(newTable [107, 118] 1 8 2).get rfl], some ([] : List NosKvTable).length) := rfl
  refine ⟨(newTable [107, 118] 1 8 2).get rfl, hcreate, ?_⟩
  refine always_slotsKept hcreate (by decide) ?_
  iterate 3 refine .cons rfl trivial ?_
  refine .cons rfl ⟨rfl, by decide, nofun⟩ ?_
  iterate 3 refine .cons rfl trivial ?_
  refine .cons rfl rfl ?_
  iterate 4 refine .cons rfl trivial ?_
  refine .cons rfl ⟨rfl, nofun⟩ ?_
  iterate 2 refine .cons rfl trivial ?_
  refine .cons rfl rfl ?_
  iterate 3 refine .cons rfl trivial ?_
  refine .cons rfl ⟨rfl, by decide, nofun⟩ ?_
  iterate 3 refine .cons rfl trivial ?_
  refine .cons rfl rfl ?_
  exact .cons rfl trivial trivial

/-- Two puts in different buckets load the same top, and both link the record at that position. -/
theorem not_slotsKept_after_two_puts : ∃ table,
    nosKvTableCreate [] [107, 118] 1 8 2 true = some ([] ++ [table], some 0) ∧
      ¬ Run.Always step (fun s : KvShared Bool => s.Quiescent → s.table.SlotsKept) (init table)
        ([.call false (.put [1] none 0), .call true (.put [2] none 0)] ++
          (List.replicate 8 [.next false, .next true]).flatten) := by
  refine ⟨(newTable [107, 118] 1 8 2).get rfl, rfl, fun h => ?_⟩
  obtain ⟨chain, hdivided, -⟩ := h.last rfl (by rintro (_ | _) <;> rfl)
  have hfirst := (hdivided.isChain 427 (by decide)).head_mem (by decide)
  have hsecond := (hdivided.isChain 159 (by decide)).head_mem (by decide)
  exact hdivided.disjoint 427 (by decide) 159 (by decide) (by decide) hfirst hsecond

end KvShared

end GeminiNOS

import GeminiNOS.Kv.AtomicMap
import GeminiNOS.Kv.ExposedValues
import GeminiNOS.Kv.SlotOwnership
import Mathlib.Combinatorics.Enumerative.DoubleCounting

/-! # A table is linearizable

An operation takes effect where it finds its key or the end of the chain; a put of a
new key when it links its record, or when it finds no free one. As long as the accesses
to the free stack fit, a table then has the histories of a map whose operations take
effect one after the other, each between its call and its return.
-/

namespace GeminiNOS

open Foundations IndexChain Linearizable

def KvLockPc.decided : KvLockPc → Option KvOutcome
  | start | lock _ _ | walk _ _ _ _ => none
  | work pc => if pc.inserting.isSome then none else some ⟨.ok, none⟩
  | unlock _ result _ | outside result _ | callback result _ => some result

def KvFrame.operation (f : KvFrame) : Operation KvLockCall KvOutcome := ⟨f.call, f.pc.decided⟩

/-- Behind its check an operation works on the key that it was called with. -/
structure KvFrame.Meant (maxValSize : ℕ) (f : KvFrame) : Prop where
  lock : ∀ b key, f.pc = .lock b key → f.call.checked maxValSize = some key
  walk : ∀ b key i j, f.pc = .walk b key i j → f.call.checked maxValSize = some key
  moves : ∀ pc, f.pc = .work pc → f.call.moves
  insert : ∀ pc args, f.pc = .work pc → pc.inserting = some args →
    f.call = .put (some args.key) args.val args.valLen

/-- The map that a table shows, with the bound on its values. -/
def NosKvTable.Displays {capacity : ℕ} (table : NosKvTable) (maxValSize : ℕ)
    (m : BoundedMap Bytes KvItem capacity) : Prop :=
  table.maxValSize = maxValSize ∧ ∃ chain, table.Chains chain ∧ table.Shows chain m

namespace KvLocking

variable {P : Type*}

/-- What a step adds to the history: a call, or what has returned since. -/
def event (s : KvLocking P) (a : KvLockAction P) (s' : KvLocking P) :
    List (Event P KvLockCall KvOutcome) :=
  match a with
  | .call p call => [.invoke p call]
  | .next p =>
    (s'.returned.take (s'.returned.length - s.returned.length)).map fun r =>
      .respond p r.call r.result

def calls (s : KvLocking P) (p : P) : Option KvLockCall := (s.frames p).head?.map KvFrame.call

/-- The atomic object is where the threads and the table are. -/
structure Simulates [Fintype P] {capacity : ℕ} (s : KvLocking P) (maxValSize : ℕ)
    (t : Atomic (BoundedMap Bytes KvItem capacity) P KvLockCall KvOutcome) : Prop where
  accounted : s.Accounted
  exposing : ∃ chain, s.Exposing chain
  meant : ∀ p, ∀ f ∈ s.frames p, f.Meant maxValSize
  displays : s.table.Displays maxValSize t.value
  operations : ∀ p, t.operations p = (s.frames p).map KvFrame.operation

/-- What a step of the innermost operation of a thread is to the atomic object: nothing, its
effect, its return, or both at once. -/
inductive Advances [Fintype P] [DecidableEq P] {capacity : ℕ} (s s' : KvLocking P) (p : P)
    (f : KvFrame) (rest : List KvFrame) (maxValSize : ℕ) (m : BoundedMap Bytes KvItem capacity) :
    Prop
  | quiet (f' : KvFrame) (hframes : s'.frames = Function.update s.frames p (f' :: rest))
      (hreturned : s'.returned = s.returned) (hmeant : f'.Meant maxValSize)
      (hop : f'.operation = f.operation) (hdisplays : s'.table.Displays maxValSize m)
  | effect (f' : KvFrame) (result : KvOutcome) (m' : BoundedMap Bytes KvItem capacity)
      (hframes : s'.frames = Function.update s.frames p (f' :: rest))
      (hreturned : s'.returned = s.returned) (hmeant : f'.Meant maxValSize)
      (hpending : f.operation = ⟨f.call, none⟩) (hop : f'.operation = ⟨f.call, some result⟩)
      (happly : KvApply maxValSize s.calls p m f.call result m')
      (hdisplays : s'.table.Displays maxValSize m')
  | ret (result : KvOutcome) (held : List KvHold)
      (hframes : s'.frames = Function.update s.frames p rest)
      (hreturned : s'.returned = ⟨f.call, result, held⟩ :: s.returned)
      (hop : f.operation = ⟨f.call, some result⟩) (hdisplays : s'.table.Displays maxValSize m)
  | effectRet (result : KvOutcome) (held : List KvHold)
      (hframes : s'.frames = Function.update s.frames p rest)
      (hreturned : s'.returned = ⟨f.call, result, held⟩ :: s.returned)
      (hpending : f.operation = ⟨f.call, none⟩)
      (happly : KvApply maxValSize s.calls p m f.call result m)
      (hdisplays : s'.table.Displays maxValSize m)

end KvLocking

namespace KvFrame

variable {f : KvFrame} {pc : KvLockPc} {maxValSize : ℕ}

theorem Meant.of_result {result : KvOutcome} (h : f.pc.result = some result) :
    f.Meant maxValSize := by
  constructor
  · intro b key hpc
    rw [hpc] at h
    cases h
  · intro b key i j hpc
    rw [hpc] at h
    cases h
  · intro pc hpc
    rw [hpc] at h
    cases h
  · intro pc args hpc
    rw [hpc] at h
    cases h

theorem Meant.work {old new : KvPc} (h : f.Meant maxValSize) (hpc : f.pc = .work old)
    (hins : ∀ args, new.inserting = some args → old.inserting = some args) :
    KvFrame.Meant maxValSize { f with pc := .work new } := by
  constructor
  · rintro _ _ ⟨⟩
  · rintro _ _ _ _ ⟨⟩
  · rintro _ ⟨⟩
    exact h.moves _ hpc
  · rintro _ args ⟨⟩ ha
    exact h.insert _ args hpc (hins args ha)

end KvFrame

namespace NosKvTable

variable {table : NosKvTable} {chain : ℕ → List ℕ} {maxValSize capacity b n i : ℕ}
  {m : BoundedMap Bytes KvItem capacity}

theorem Displays.shows (h : table.Displays maxValSize m) (hc : table.Chains chain) :
    table.Shows chain m := by
  obtain ⟨-, chain', hc', h⟩ := h
  exact h.rechain hc' hc

theorem Displays.setReaders (h : table.Displays maxValSize m) :
    (table.setReaders b n).Displays maxValSize m := by
  obtain ⟨hmax, chain, hc, h⟩ := h
  exact ⟨hmax, chain, hc.setReaders b n, h.congr rfl rfl (fun _ _ => rfl) fun _ _ _ _ => ⟨rfl, rfl⟩⟩

theorem Displays.restack (h : table.Displays maxValSize m) (freeStack : ℕ → ℕ) (freeTop : ℤ)
    (usedCount : ℕ) : NosKvTable.Displays
      { table with freeStack := freeStack, freeTop := freeTop, usedCount := usedCount }
      maxValSize m := by
  obtain ⟨hmax, chain, hc, h⟩ := h
  exact ⟨hmax, chain, hc, h.congr rfl rfl (fun _ _ => rfl) fun _ _ _ _ => ⟨rfl, rfl⟩⟩

theorem Displays.overwrite (h : table.Displays maxValSize m) (hc : table.Chains chain)
    (hb : b < table.bucketCount) (hi : i ∈ chain b) (hlive : (m.find (table.keyAt i)).isSome)
    {val : Option Bytes} {valLen : ℕ} (hv : valLen ≤ maxValSize) :
    ∃ value, Wrote val valLen value ∧ (table.overwrite i val valLen).Displays maxValSize
      (m.set (table.keyAt i) ⟨value, (table.itemAt i).subList⟩ (.inl hlive)) := by
  have hmax : valLen ≤ table.maxValSize := h.1 ▸ hv
  obtain ⟨value, hwrote, hvalue⟩ := hc.itemAt_overwrite_self hb hi hmax
  refine ⟨value, hwrote, h.1, chain, hc.overwrite hb hi hmax,
    (h.shows hc).set_live hc hb hi hlive rfl rfl (fun k hk => ?_) hvalue fun k hk hne => ?_⟩
  · exact hc.keyAt_overwrite hb hi hk
  · exact hc.itemAt_setEntry (hc.used_lt hb hi) hk hne _

theorem Displays.setSubList (h : table.Displays maxValSize m) (hc : table.Chains chain)
    (hb : b < table.bucketCount) (hi : i ∈ chain b) (hlive : (m.find (table.keyAt i)).isSome)
    (subList : List NosKvSub) : (table.setSubList i subList).Displays maxValSize
      (m.set (table.keyAt i) ⟨(table.itemAt i).value, subList⟩ (.inl hlive)) := by
  refine ⟨h.1, chain, hc.setSubList i subList,
    (h.shows hc).set_live hc hb hi hlive rfl rfl (fun k _ => ?_) ?_ fun k hk hne => ?_⟩
  · exact keyAt_congr rfl (by rw [getEntry_setSubList])
  · rw [itemAt, valueAt, NosKvTable.setSubList, getEntry_setEntry_self]
    rfl
  · exact hc.itemAt_setEntry (hc.used_lt hb hi) hk hne _

theorem Displays.detach (h : table.Displays maxValSize m) (hc : table.Chains chain)
    (hb : b < table.bucketCount) {l₁ l₂ : List ℕ} (hl : chain b = l₁ ++ i :: l₂) :
    (table.detach b (l₁.getLastD kvInvalidIdx) i).Displays maxValSize
      (m.erase (table.keyAt i)) := by
  refine ⟨maxValSize_detach.trans h.1, _, hc.detach hb hl,
    (h.shows hc).erase hc hb hl bucketCount_detach capacity_detach fun k hk hne => ⟨?_, ?_⟩⟩
  · exact hc.keyAt_detach hb hl hk
  · exact hc.itemAt_detach hb hl hk hne

/-- Next to a record without a chain there is room in the map. -/
theorem Chains.not_full (hc : table.Chains chain) (h : table.Shows chain m)
    (hi : table.Unchained chain i) : ¬ m.Full := by
  obtain ⟨freeStack, freeTop, usedCount, hinv⟩ := hc
  obtain ⟨htop, -⟩ := hinv.retop hi
  have hlive := hinv.liveKeys_eq
  have hcard := h.card_eq
  have hcap := h.capacity_eq
  unfold BoundedMap.Full
  unfold liveKeys at hlive hcard
  dsimp only at hlive htop
  omega

end NosKvTable

/-- Without a position on the free stack, all records out of the chains are in the hands of
threads. -/
theorem KvShared.Placed.capacity_le {P : Type*} {s : KvShared P} {chain : ℕ → List ℕ}
    (h : s.Placed chain) (htop : s.table.freeTop < 0) {hands : Finset P}
    (hhands : ∀ q i, s.table.carried (s.pc q) = some i → q ∈ hands) :
    s.table.capacity ≤ s.table.liveKeys chain + hands.card := by
  have hcarried : ∀ i, s.table.Unchained chain i → ∃ q, s.table.carried (s.pc q) = some i := by
    intro i hi
    obtain ⟨k | q, hat⟩ := h.owned.places.placed i hi
    · have hk : (k : ℤ) ≤ s.table.freeTop := hat.1
      omega
    · exact ⟨q, hat⟩
  obtain ⟨freeStack, freeTop, usedCount, hinv⟩ := h.locked.chains
  have hlive := hinv.liveKeys_eq
  have hge := hinv.top_ge
  dsimp only at hlive hge
  have hout : ∀ k ∈ Finset.range (freeTop + 1).toNat, s.table.Unchained chain (freeStack k) := by
    intro k hk
    have hk' : (k : ℤ) ≤ freeTop := by
      have := Finset.mem_range.mp hk
      omega
    exact ⟨hinv.free_lt k hk', fun b hb => hinv.free_unused k hk' b hb⟩
  have hcard : (Finset.range (freeTop + 1).toNat).card ≤ hands.card := by
    apply Finset.card_le_card_of_forall_subsingleton fun k q =>
      s.table.carried (s.pc q) = some (freeStack k)
    · intro k hk
      obtain ⟨q, hq⟩ := hcarried _ (hout k hk)
      exact ⟨q, hhands q _ hq, hq⟩
    · rintro q - k ⟨hk, hkq⟩ l ⟨hl, hlq⟩
      have hrange {n : ℕ} (hn : n ∈ Finset.range (freeTop + 1).toNat) : (n : ℤ) ≤ freeTop := by
        have := Finset.mem_range.mp hn
        omega
      exact hinv.free_inj k l (hrange hk) (hrange hl) (Option.some.inj (hkq.symm.trans hlq))
  rw [Finset.card_range] at hcard
  unfold NosKvTable.liveKeys at *
  dsimp only at hlive
  omega

namespace KvLocking

variable {P : Type*} [Fintype P] [DecidableEq P] {s s' : KvLocking P} {p : P} {f : KvFrame}
  {rest : List KvFrame} {table : NosKvTable} {pc : KvLockPc} {maxValSize capacity b i j : ℕ}
  {m m' : BoundedMap Bytes KvItem capacity} {key : Bytes} {result : KvOutcome}
  {chain : ℕ → List ℕ}

theorem Advances.go (hdecided : pc.decided = f.pc.decided)
    (hmeant : KvFrame.Meant maxValSize { f with pc := pc }) (hd : table.Displays maxValSize m) :
    (s.Advances (s.go p f rest table pc) p f rest maxValSize m) :=
  .quiet { f with pc := pc } rfl rfl hmeant (by rw [KvFrame.operation, hdecided]; rfl) hd

theorem Advances.settle {call : KvLockCall} (hcall : f.call = call)
    (hpending : f.pc.decided = none) (hresult : pc.result = some result)
    (happly : KvApply maxValSize s.calls p m call result m') (hd : table.Displays maxValSize m') :
    (s.Advances (s.go p f rest table pc) p f rest maxValSize m) := by
  subst hcall
  have hdecided : pc.decided = some result := by
    cases pc <;> cases hresult <;> rfl
  refine .effect { f with pc := pc } result m' rfl rfl ?_ ?_ ?_ ?_ ?_
  · exact .of_result hresult
  · rw [KvFrame.operation, hpending]
  · rw [KvFrame.operation, hdecided]
  · exact happly
  · exact hd

theorem Advances.check (hd : s.table.Displays maxValSize m) (hpc : f.pc = .start)
    (hs : s.check p f rest = some s') : s.Advances s' p f rest maxValSize m := by
  have hpending : f.pc.decided = none := by
    rw [hpc]
    rfl
  unfold KvLocking.check at hs
  split at hs
  · rename_i hcall
    cases hs
    exact .settle hcall hpending rfl (.release none) hd
  · rename_i addr hcall
    obtain ⟨x, -, rfl⟩ := Option.map_eq_some_iff.mp hs
    refine .effect { f with pc := .outside ⟨.ok, none⟩ [] } ⟨.ok, none⟩ m rfl rfl ?_ ?_ ?_ ?_ ?_
    · exact .of_result rfl
    · rw [KvFrame.operation, hpending]
    · rfl
    · exact hcall ▸ .release (some addr)
    · exact hd.setReaders
  · rename_i call hnone hsome
    split at hs
    · rename_i hchecked
      cases hs
      refine .settle rfl hpending rfl (.reject (hd.1 ▸ hchecked) fun handle hcall => ?_) hd
      cases handle with
      | none => exact hnone hcall
      | some addr => exact hsome addr hcall
    · rename_i key hchecked
      split at hs
      · cases hs
      · obtain ⟨b, -, rfl⟩ := Option.map_eq_some_iff.mp hs
        refine .go hpending.symm ⟨?_, ?_, ?_, ?_⟩ hd
        · rintro _ _ ⟨⟩
          exact hd.1 ▸ hchecked
        · rintro _ _ _ _ ⟨⟩
        · rintro _ ⟨⟩
        · rintro _ _ ⟨⟩

theorem Advances.lock (hd : s.table.Displays maxValSize m) (hf : f.Meant maxValSize)
    (hpc : f.pc = .lock b key) (hs : s.lock p f rest b key = some s') :
    s.Advances s' p f rest maxValSize m := by
  have hmeant (i j : ℕ) (held : List KvHold) :
      KvFrame.Meant maxValSize ⟨f.call, .walk b key i j, held⟩ := by
    constructor
    · rintro _ _ ⟨⟩
    · rintro _ _ _ _ ⟨⟩
      exact hf.lock b key hpc
    · rintro _ ⟨⟩
    · rintro _ _ ⟨⟩
  have hop (i j : ℕ) (held : List KvHold) :
      KvFrame.operation ⟨f.call, .walk b key i j, held⟩ = f.operation := by
    rw [KvFrame.operation, KvFrame.operation, hpc]
    rfl
  unfold KvLocking.lock at hs
  dsimp only at hs
  split at hs <;> split at hs <;> cases hs
  · exact .quiet _ rfl rfl (hmeant _ _ _) (hop _ _ _) hd
  · exact .quiet _ rfl rfl (hmeant _ _ _) (hop _ _ _) hd.setReaders

theorem Advances.absent (hd : s.table.Displays maxValSize m) (hf : f.Meant maxValSize)
    (hchains : s.table.Chains chain) (hpc : f.pc = .walk b key i kvInvalidIdx)
    (hasked : s.table.Asked f.call b key)
    (hwalk : s.table.Walking chain b key i kvInvalidIdx)
    (hs : s.absent p f rest b key = some s') : s.Advances s' p f rest maxValSize m := by
  have hpending : f.pc.decided = none := by
    rw [hpc]
    rfl
  have hchecked := hf.walk _ _ _ _ hpc
  have hnone : m.find key = none :=
    (hd.shows hchains).find_none hchains hasked.bucketOf hwalk.absent
  unfold KvLocking.absent at hs
  split at hs <;> cases hs
  · rename_i key' val valLen hcall
    refine .go (by rw [hpending]; rfl) ⟨?_, ?_, ?_, ?_⟩ hd
    · rintro _ _ ⟨⟩
    · rintro _ _ _ _ ⟨⟩
    · rintro _ ⟨⟩
      rw [hcall]
      rfl
    · rintro _ args ⟨⟩ ⟨⟩
      dsimp only
      rw [hcall] at hchecked ⊢
      simp only [KvLockCall.checked] at hchecked
      split at hchecked
      · cases hchecked
      · rw [hchecked]
  · rename_i hput hrelease
    exact .settle rfl hpending rfl (.absent hchecked hnone hput) hd

/-- A call that has passed its check stands at the record of its key. -/
structure FoundRecord (s : KvLocking P) (f : KvFrame) (chain : ℕ → List ℕ) (b j maxValSize : ℕ)
    (m : BoundedMap Bytes KvItem capacity) : Prop where
  displays : s.table.Displays maxValSize m
  chains : s.table.Chains chain
  bucket : b < s.table.bucketCount
  mem : j ∈ chain b
  pending : f.pc.decided = none
  checked : f.call.checked maxValSize = some (s.table.keyAt j)

namespace FoundRecord

variable {keyArg : Option Bytes} {sub : NosKvSub}

omit [Fintype P] [DecidableEq P] in
theorem find_some (h : s.FoundRecord f chain b j maxValSize m) :
    m.find (s.table.keyAt j) = some (s.table.itemAt j) :=
  (h.displays.shows h.chains).find_some h.bucket h.mem

omit [Fintype P] [DecidableEq P] in
theorem live (h : s.FoundRecord f chain b j maxValSize m) : (m.find (s.table.keyAt j)).isSome :=
  Option.isSome_of_eq_some h.find_some

omit [Fintype P] [DecidableEq P] in
theorem length_value (h : s.FoundRecord f chain b j maxValSize m) :
    (s.table.itemAt j).value.length = (s.table.getEntry j).valLen :=
  h.chains.length_valueAt h.bucket h.mem

theorem put (h : s.FoundRecord f chain b j maxValSize m) {val : Option Bytes} {valLen : ℕ}
    (hcall : f.call = .put keyArg val valLen) (notified : List KvNotification) :
    s.Advances (s.go p f rest (s.table.overwrite j val valLen) (.unlock b ⟨.ok, none⟩ notified))
      p f rest maxValSize m := by
  have hchecked := h.checked
  simp only [hcall, KvLockCall.checked] at hchecked
  split at hchecked
  · cases hchecked
  rename_i hlen
  subst hchecked
  have hle := Nat.le_of_not_lt hlen
  obtain ⟨value, hwrote, hd⟩ := h.displays.overwrite h.chains h.bucket h.mem h.live hle
  exact .settle hcall h.pending rfl (.overwrite hle h.find_some hwrote) hd

theorem get (h : s.FoundRecord f chain b j maxValSize m) {valBuf : Bool} {valLen : Option ℕ}
    (hcall : f.call = .get keyArg valBuf valLen) :
    s.Advances (s.go p f rest s.table (.unlock b ⟨.ok, some
      (((s.table.getEntry j).data.drop s.table.keySize).take
        (min (valLen.getD 0) (s.table.getEntry j).valLen), (s.table.getEntry j).valLen)⟩ []))
      p f rest maxValSize m := by
  have hchecked := h.checked
  simp only [hcall, KvLockCall.checked] at hchecked
  split at hchecked
  · rename_i hargs
    subst hchecked
    obtain ⟨rfl, hroom⟩ := hargs
    obtain ⟨room, rfl⟩ := Option.isSome_iff_exists.mp hroom
    refine .settle hcall h.pending rfl ?_ h.displays
    have hout : ((s.table.getEntry j).data.drop s.table.keySize).take
        (min room (s.table.getEntry j).valLen) = (s.table.itemAt j).value.take room := by
      rw [NosKvTable.itemAt, NosKvTable.valueAt, List.take_take]
    rw [Option.getD_some, hout, ← h.length_value]
    exact .read h.find_some
  · cases hchecked

theorem getPtr (h : s.FoundRecord f chain b j maxValSize m) {outPtr outLen outHandle : Bool}
    {addr : ℕ} (hcall : f.call = .getPtr keyArg outPtr outLen outHandle addr)
    (hs : s.found p f rest b i j = some s') : s.Advances s' p f rest maxValSize m := by
  have hchecked := h.checked
  simp only [hcall, KvLockCall.checked] at hchecked
  simp only [KvLocking.found, hcall] at hs
  split at hs <;> cases hs
  split at hchecked
  · rename_i hargs
    subst hchecked
    obtain ⟨rfl, rfl, rfl⟩ := hargs
    refine .effectRet _ _ rfl (by rw [hcall]) ?_ ?_ h.displays
    · rw [KvFrame.operation, h.pending]
    · rw [hcall, ← h.length_value]
      exact .readPtr h.find_some
  · cases hchecked

theorem subscribe (h : s.FoundRecord f chain b j maxValSize m)
    (hcall : f.call = .subscribe keyArg sub) (hs : s.found p f rest b i j = some s') :
    s.Advances s' p f rest maxValSize m := by
  have hchecked := h.checked
  simp only [hcall, KvLockCall.checked] at hchecked
  split at hchecked
  · cases hchecked
  rename_i hnotify
  subst hchecked
  simp only [KvLocking.found, hcall] at hs
  split at hs <;> cases hs <;> rename_i hin
  · exact .settle hcall h.pending rfl (.subscribed hnotify h.find_some hin) h.displays
  · exact .settle hcall h.pending rfl (.subscribe hnotify h.find_some hin)
      (h.displays.setSubList h.chains h.bucket h.mem h.live _)

theorem unsubscribe (h : s.FoundRecord f chain b j maxValSize m)
    (hcall : f.call = .unsubscribe keyArg sub) (hs : s.found p f rest b i j = some s') :
    s.Advances s' p f rest maxValSize m := by
  have hchecked := h.checked
  simp only [hcall, KvLockCall.checked] at hchecked
  split at hchecked
  · cases hchecked
  rename_i hnotify
  subst hchecked
  simp only [KvLocking.found, hcall] at hs
  split at hs <;> cases hs <;> rename_i hin
  · exact .settle hcall h.pending rfl (.unsubscribe hnotify h.find_some hin)
      (h.displays.setSubList h.chains h.bucket h.mem h.live _)
  · exact .settle hcall h.pending rfl (.unknown hnotify h.find_some hin) h.displays

theorem del (h : s.FoundRecord f chain b j maxValSize m) {l₁ l₂ : List ℕ}
    (hl : chain b = l₁ ++ j :: l₂) (hcall : f.call = .del keyArg) :
    s.Advances (s.go p f rest (s.table.detach b (l₁.getLastD kvInvalidIdx) j)
      (.work (.pushLoad b j))) p f rest maxValSize m := by
  have hkey : keyArg = some (s.table.keyAt j) := by
    have hchecked := h.checked
    rwa [hcall] at hchecked
  subst hkey
  refine .effect { f with pc := .work (.pushLoad b j) } ⟨.ok, none⟩
    (m.erase (s.table.keyAt j)) rfl rfl ?_ ?_ rfl ?_ ?_
  · refine ⟨?_, ?_, ?_, ?_⟩
    · rintro _ _ ⟨⟩
    · rintro _ _ _ _ ⟨⟩
    · rintro _ ⟨⟩
      dsimp only
      rw [hcall]
      rfl
    · rintro _ _ ⟨⟩ ⟨⟩
  · rw [KvFrame.operation, h.pending]
  · rw [hcall]
    exact .delete h.live
  · exact h.displays.detach h.chains h.bucket hl

end FoundRecord

theorem Advances.found (hd : s.table.Displays maxValSize m) (hf : f.Meant maxValSize)
    (hchains : s.table.Chains chain) (hpc : f.pc = .walk b key i j) (hj : j ≠ kvInvalidIdx)
    (hasked : s.table.Asked f.call b key) (hwalk : s.table.Walking chain b key i j)
    (hmatch : s.table.KeyMatches (s.table.getEntry j) key)
    (hs : s.found p f rest b i j = some s') : s.Advances s' p f rest maxValSize m := by
  obtain ⟨l₁, l₂, hl, rfl⟩ := hwalk.here hj
  have hkey : s.table.keyAt j = key := (NosKvTable.keyMatches_iff hasked.key_length).mp hmatch
  have h : s.FoundRecord f chain b j maxValSize m :=
    { displays := hd
      chains := hchains
      bucket := hchains.geometry.bucketOf_lt hasked.bucketOf
      mem := by simp [hl]
      pending := by rw [hpc]; rfl
      checked := hkey.symm ▸ hf.walk _ _ _ _ hpc }
  cases hcall : f.call with
  | put =>
    simp only [KvLocking.found, hcall] at hs
    cases hs
    exact h.put hcall _
  | get =>
    simp only [KvLocking.found, hcall] at hs
    cases hs
    exact h.get hcall
  | getPtr => exact h.getPtr hcall hs
  | releasePtr => simp [KvLocking.found, hcall] at hs
  | subscribe => exact h.subscribe hcall hs
  | unsubscribe => exact h.unsubscribe hcall hs
  | del =>
    simp only [KvLocking.found, hcall] at hs
    cases hs
    exact h.del hl hcall

theorem mem_movers (hmeant : ∀ q, ∀ g ∈ s.frames q, g.Meant maxValSize)
    (hnone : table.carried (s.shared.pc p) = none) (q : P) (k : ℕ)
    (hq : table.carried (s.shared.pc q) = some k) :
    q ∈ Finset.univ.filter fun q => q ≠ p ∧ (s.calls q).any KvLockCall.moves := by
  have hne : q ≠ p := by
    rintro rfl
    rw [hnone] at hq
    cases hq
  cases hframes : s.frames q with
  | nil =>
    simp [shared, hframes, NosKvTable.carried] at hq
  | cons g gs =>
    rw [shared_pc hframes] at hq
    have hg := hmeant q g (by simp [hframes])
    have hwork : g.call.moves := by
      cases hpc : g.pc <;> rw [hpc] at hq
      case work pc => exact hg.moves pc hpc
      all_goals cases hq
    refine Finset.mem_filter.mpr ⟨Finset.mem_univ q, hne, ?_⟩
    simp [calls, hframes, hwork]

theorem Advances.busy {args : KvInsert} (hd : s.table.Displays maxValSize m)
    (hmeant : ∀ q, ∀ g ∈ s.frames q, g.Meant maxValSize) (hp : s.frames p = f :: rest)
    (hplaced : s.shared.Placed chain) (hpc : f.pc = .work (.checkTop args))
    (htop : s.table.freeTop < 0) :
    s.Advances (s.go p f rest s.table (.unlock args.bucket ⟨.errBusy, none⟩ [])) p f rest
      maxValSize m := by
  have hpcs : s.shared.pc p = .checkTop args := by
    rw [shared_pc hp, hpc]
    rfl
  have hargs : KvShared.Insertable s.table chain args :=
    (hplaced.locked.holds p).insertable args (by rw [hpcs]; rfl)
  have hshows := hd.shows hplaced.locked.chains
  have hnone := hshows.find_none hplaced.locked.chains hargs.bucketOf hargs.absent
  have hcarried : s.table.carried (s.shared.pc p) = none := by
    rw [hpcs]
    rfl
  have hle := hplaced.capacity_le htop (mem_movers hmeant hcarried)
  have hcard := hshows.card_eq
  have hcap := hshows.capacity_eq
  have hbusy : capacity ≤ m.live.card + movers s.calls p := by
    change s.table.capacity ≤ s.table.liveKeys chain + movers s.calls p at hle
    omega
  refine .settle ((hmeant p f (by simp [hp])).insert _ args hpc rfl) ?_ rfl
    (.busy (hd.1 ▸ hargs.valLen_le) hnone hbusy) hd
  rw [hpc]
  rfl

theorem Advances.fill {args : KvInsert} (hd : s.table.Displays maxValSize m)
    (hf : f.Meant maxValSize) (hp : s.frames p = f :: rest) (hplaced : s.shared.Placed chain)
    (hpc : f.pc = .work (.fill args i)) :
    s.Advances (s.go p f rest (s.table.linkNew args i) (.work (.countLoad args.bucket true))) p f
      rest maxValSize m := by
  have hpcs : s.shared.pc p = .fill args i := by
    rw [shared_pc hp, hpc]
    rfl
  have hi := hplaced.unchained_fill hpcs
  have hchains := hplaced.locked.chains
  have hargs : KvShared.Insertable s.table chain args :=
    (hplaced.locked.holds p).insertable args (by rw [hpcs]; rfl)
  have hb := hchains.geometry.bucketOf_lt hargs.bucketOf
  have hshows := hd.shows hchains
  have hnone := hshows.find_none hchains hargs.bucketOf hargs.absent
  have hfull := hchains.not_full hshows hi
  obtain ⟨value, hwrote, hvalue⟩ :=
    hchains.itemAt_linkNew_self hi hargs.key_length hargs.valLen_le
  have happly : KvApply maxValSize s.calls p m f.call ⟨.ok, none⟩
      (m.set args.key ⟨value, []⟩ (.inr hfull)) := by
    rw [hf.insert _ args hpc rfl]
    exact .insert (hd.1 ▸ hargs.valLen_le) hnone hfull hwrote
  refine .effect { f with pc := .work (.countLoad args.bucket true) } _ _ rfl rfl ?_ ?_ rfl
    happly ?_
  · exact hf.work hpc (by rintro _ ⟨⟩)
  · rw [KvFrame.operation, hpc]
    rfl
  · refine ⟨hd.1, _,
      hchains.linkNew hargs.bucketOf hargs.key_length hargs.valLen_le hargs.absent hi,
      hshows.set_new hb hnone hfull rfl rfl ?_ hvalue fun b' hb' k hk => ⟨?_, ?_⟩⟩
    · exact hchains.keyAt_linkNew_self hi hargs.key_length
    · exact hchains.keyAt_linkNew hi hb' hk
    · exact hchains.itemAt_linkNew hi hb' hk

theorem Advances.work {pc : KvPc} {t : KvShared P} (hd : s.table.Displays maxValSize m)
    (hmeant : ∀ q, ∀ g ∈ s.frames q, g.Meant maxValSize) (hp : s.frames p = f :: rest)
    (hplaced : s.shared.Placed chain) (hpc : f.pc = .work pc) (hunlock : ∀ b, pc ≠ .unlock b)
    (hs : s.shared.next p pc = some t) :
    s.Advances (s.go p f rest t.table (.afterWork pc (t.pc p))) p f rest maxValSize m := by
  have hf := hmeant p f (by simp [hp])
  have hdone (h : pc.inserting = none) : f.pc.decided = some ⟨.ok, none⟩ := by
    rw [hpc]
    simp [KvLockPc.decided, h]
  -- a step with the same result goes on, and writes at most the free stack or the counter
  have hgo {table : NosKvTable} {new : KvPc} (hdecided : new.inserting = pc.inserting)
      (hd : table.Displays maxValSize m) :
      s.Advances (s.go p f rest table (.work new)) p f rest maxValSize m := by
    refine .go ?_ (hf.work hpc fun args ha => hdecided ▸ ha) hd
    rw [hpc, KvLockPc.decided, KvLockPc.decided, hdecided]
  cases pc with
  | idle => cases hs
  | unlock b => exact absurd rfl (hunlock b)
  | checkTop args =>
    cases hs
    simp only [KvShared.setPc, Function.update_self]
    split
    · exact .busy hd hmeant hp hplaced hpc ‹_›
    · exact hgo rfl hd
  | popLoad args =>
    cases hs
    simp only [KvShared.setPc, Function.update_self]
    exact hgo rfl hd
  | popStore args top =>
    cases hs
    simp only [KvShared.setTable, Function.update_self]
    exact hgo rfl (hd.restack _ _ _)
  | popSlot args pos =>
    simp only [KvShared.next] at hs
    split at hs <;> cases hs
    simp only [KvShared.setPc, Function.update_self]
    exact hgo rfl hd
  | fill args newIdx =>
    cases hs
    simp only [KvShared.setTable, Function.update_self]
    exact .fill hd hf hp hplaced hpc
  | pushLoad b currIdx =>
    cases hs
    simp only [KvShared.setPc, Function.update_self]
    exact hgo rfl hd
  | pushStore b currIdx top =>
    cases hs
    simp only [KvShared.setTable, Function.update_self]
    exact hgo rfl (hd.restack _ _ _)
  | pushSlot b currIdx pos =>
    simp only [KvShared.next] at hs
    split at hs <;> cases hs
    simp only [KvShared.setTable, Function.update_self]
    exact hgo rfl (hd.restack _ _ _)
  | countLoad b inserted =>
    cases hs
    simp only [KvShared.setPc, Function.update_self]
    exact hgo rfl hd
  | countStore b inserted usedCount =>
    cases hs
    simp only [KvShared.setTable, Function.update_self]
    exact .go (hdone rfl).symm (.of_result rfl) (hd.restack _ _ _)

theorem Advances.unlock {notified : List KvNotification} (hd : s.table.Displays maxValSize m)
    (hpc : f.pc = .unlock b result notified) :
    s.Advances (s.unlock p f rest b result notified) p f rest maxValSize m := by
  have hop (held : List KvHold) :
      KvFrame.operation ⟨f.call, .outside result notified, held⟩ = f.operation := by
    rw [KvFrame.operation, KvFrame.operation, hpc]
    rfl
  unfold KvLocking.unlock
  dsimp only
  split
  · exact .quiet _ rfl rfl (.of_result rfl) (hop _) hd
  · exact .quiet _ rfl rfl (.of_result rfl) (hop _) hd.setReaders

theorem Simulates.advances {t : Atomic (BoundedMap Bytes KvItem capacity) P KvLockCall KvOutcome}
    (h : s.Simulates maxValSize t) (hp : s.frames p = f :: rest) (hs : s.next p f rest = some s') :
    s.Advances s' p f rest maxValSize t.value := by
  obtain ⟨chain, hexposing⟩ := h.exposing
  have hd := h.displays
  have hf := h.meant p f (by simp [hp])
  have hsees := hexposing.sees p f (by simp [hp])
  have hchains := hexposing.placed.locked.chains
  unfold KvLocking.next at hs
  split at hs <;> rename_i hpc
  · exact .check hd hpc hs
  · exact .lock hd hf hpc hs
  · obtain ⟨hasked, hwalk⟩ := hsees.walk _ _ _ _ hpc
    split at hs
    · rename_i hnull
      subst hnull
      exact .absent hd hf hchains hpc hasked hwalk hs
    · rename_i hnull
      split at hs
      · exact .found hd hf hchains hpc hnull hasked hwalk ‹_› hs
      · cases hs
        refine .go (by rw [hpc]; rfl) ⟨?_, ?_, ?_, ?_⟩ hd
        · rintro _ _ ⟨⟩
        · rintro _ _ _ _ ⟨⟩
          exact hf.walk _ _ _ _ hpc
        · rintro _ ⟨⟩
        · rintro _ _ ⟨⟩
  · cases hs
  · rename_i hunlock
    obtain ⟨u, hu, rfl⟩ := Option.map_eq_some_iff.mp hs
    exact .work hd h.meant hp hexposing.placed hpc (fun b hb => hunlock b hb) hu
  · cases hs
    exact .unlock hd hpc
  · cases hs
    exact .ret _ _ rfl rfl (by rw [KvFrame.operation, hpc]; rfl) hd
  · cases hs
    exact .go (by rw [hpc]; rfl) (.of_result rfl) hd
  · cases hs
    exact .go (by rw [hpc]; rfl) (.of_result rfl) hd

section Simulation

variable {t : Atomic (BoundedMap Bytes KvItem capacity) P KvLockCall KvOutcome}

omit [DecidableEq P] in
theorem Simulates.calls_eq (h : s.Simulates maxValSize t) : t.calls = s.calls := by
  funext q
  rw [Atomic.calls, h.operations, calls, List.head?_map, Option.map_map]
  rfl

theorem Simulates.update (h : s.Simulates maxValSize t) (ha : s'.Accounted)
    (he : ∃ chain, s'.Exposing chain) (fs : List KvFrame)
    (hframes : s'.frames = Function.update s.frames p fs) (hmeant : ∀ f ∈ fs, f.Meant maxValSize)
    (hd : s'.table.Displays maxValSize m) :
    s'.Simulates maxValSize
      ⟨m, Function.update t.operations p (fs.map KvFrame.operation)⟩ := by
  constructor
  · exact ha
  · exact he
  · intro q
    rw [hframes, Function.update_apply]
    split
    · exact hmeant
    · exact h.meant q
  · exact hd
  · intro q
    dsimp only
    rw [hframes, Function.update_apply, Function.update_apply]
    split
    · rfl
    · exact h.operations q

theorem Simulates.call (h : s.Simulates maxValSize t) {c : KvLockCall}
    (ha : s'.Accounted) (he : ∃ chain, s'.Exposing chain)
    (hs : s.step (.call p c) = some s') : ∃ t',
      Runs (KvApply maxValSize) t (s.event (.call p c) s') t' ∧ s'.Simulates maxValSize t' := by
  simp only [KvLocking.step] at hs
  split at hs <;> cases hs
  rename_i hready
  have hstart : KvFrame.Meant maxValSize ⟨c, .start, []⟩ := by
    constructor
    · rintro _ _ ⟨⟩
    · rintro _ _ _ _ ⟨⟩
    · rintro _ ⟨⟩
    · rintro _ _ ⟨⟩
  have hsim := h.update (p := p) ha he (⟨c, .start, []⟩ :: s.frames p) rfl
    (List.forall_mem_cons.mpr ⟨hstart, h.meant p⟩) h.displays
  rw [List.map_cons, ← h.operations p] at hsim
  refine ⟨_, .invoke ?_ (.refl _), hsim⟩
  rw [h.operations p, List.head?_map]
  rintro op hop
  obtain ⟨f, hf, rfl⟩ := Option.map_eq_some_iff.mp hop
  have hc := hready f hf
  cases hpc : f.pc <;> rw [hpc] at hc <;> cases hc
  simp [KvFrame.operation, hpc, KvLockPc.decided]

theorem Simulates.next (h : s.Simulates maxValSize t) (hp : s.frames p = f :: rest)
    (ha : s'.Accounted) (he : ∃ chain, s'.Exposing chain) (hs : s.next p f rest = some s') :
    ∃ t', Runs (KvApply maxValSize) t (s.event (.next p) s') t' ∧ s'.Simulates maxValSize t' := by
  have hops : t.operations p = f.operation :: rest.map KvFrame.operation := by
    rw [h.operations, hp, List.map_cons]
  have hrest : ∀ g ∈ rest, g.Meant maxValSize := fun g hg => h.meant p g (by simp [hp, hg])
  have hcalls := h.calls_eq
  rcases h.advances hp hs with
    ⟨f', hframes, hreturned, hmeant, hop, hd⟩ |
    ⟨f', result, m', hframes, hreturned, hmeant, hpending, hop, happly, hd⟩ |
    ⟨result, held, hframes, hreturned, hop, hd⟩ |
    ⟨result, held, hframes, hreturned, hpending, happly, hd⟩
  · have hsim := h.update ha he (f' :: rest) hframes (List.forall_mem_cons.mpr ⟨hmeant, hrest⟩) hd
    rw [List.map_cons, hop, ← hops, Function.update_eq_self] at hsim
    refine ⟨t, ?_, hsim⟩
    simp only [event, hreturned, Nat.sub_self, List.take_zero, List.map_nil]
    exact .refl t
  · have hsim := h.update ha he (f' :: rest) hframes (List.forall_mem_cons.mpr ⟨hmeant, hrest⟩) hd
    rw [List.map_cons, hop] at hsim
    refine ⟨_, ?_, hsim⟩
    simp only [event, hreturned, Nat.sub_self, List.take_zero, List.map_nil]
    rw [hpending] at hops
    rw [← hcalls] at happly
    exact .perform hops happly (.refl _)
  · have hsim := h.update ha he rest hframes hrest hd
    refine ⟨_, ?_, hsim⟩
    simp only [event, hreturned, List.length_cons, Nat.add_sub_cancel_left, List.take_succ_cons,
      List.take_zero, List.map_cons, List.map_nil]
    rw [hop] at hops
    exact .respond hops (.refl _)
  · have hsim := h.update ha he rest hframes hrest hd
    refine ⟨_, ?_, hsim⟩
    simp only [event, hreturned, List.length_cons, Nat.add_sub_cancel_left, List.take_succ_cons,
      List.take_zero, List.map_cons, List.map_nil]
    rw [hpending] at hops
    rw [← hcalls] at happly
    refine .perform hops happly (.respond (Function.update_self ..) ?_)
    rw [Atomic.setOperations, Atomic.perform, Function.update_idem]
    exact .refl _

theorem Simulates.step (h : s.Simulates maxValSize t) {a : KvLockAction P} (hfit : s.Fits a)
    (hs : s.step a = some s') : ∃ t',
      Runs (KvApply maxValSize) t (s.event a s') t' ∧ s'.Simulates maxValSize t' := by
  have ha := h.accounted.step hs
  obtain ⟨chain, hexposing⟩ := h.exposing
  have he := hexposing.step h.accounted hfit hs
  cases a with
  | call p c => exact h.call ha he hs
  | next p =>
    simp only [KvLocking.step] at hs
    split at hs
    · cases hs
    · exact h.next ‹_› ha he hs

end Simulation

end KvLocking

end GeminiNOS

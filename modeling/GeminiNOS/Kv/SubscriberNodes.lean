import GeminiNOS.Kv.Representation

/-! # The nodes of the subscribers

A put on a live key copies the pointers to the subscriber nodes of the key, and calls
through them after it has given the lock back. The callbacks may themselves put,
subscribe, unsubscribe and delete, so the puts in progress form a stack.
-/

namespace GeminiNOS

open Foundations IndexChain

/-- A put in progress: whether one of its callbacks is running, and the copied pointers that it has
still to call through. -/
structure KvPutFrame where
  key : Bytes
  running : Bool
  subs : List ℕ

/-- A call on a table by the code outside or by the running callback, with the address that the
allocator gives to a new node; or the innermost put makes its next callback, or returns. -/
inductive KvNodeAction where
  | put (key : Bytes) (val : Option Bytes) (valLen : ℕ)
  | subscribe (key : Bytes) (sub : NosKvSub) (addr : ℕ)
  | unsubscribe (key : Bytes) (sub : NosKvSub)
  | del (key : Bytes)
  | notify
  | ret

def KvNodeAction.key? : KvNodeAction → Option Bytes
  | put key _ _ | subscribe key _ _ | unsubscribe key _ | del key => some key
  | notify | ret => none

/-- A table with the heap of the subscriber nodes, the nodes linked from each record in the order of
their links, and the puts in progress, the innermost one first. -/
structure KvNodes where
  table : NosKvTable
  nodes : ℕ → Option NosKvSub
  subList : ℕ → List ℕ
  frames : List KvPutFrame

namespace NosKvTable

def record (table : NosKvTable) (key : Bytes) : Option ℕ :=
  (table.bucketOf key).bind fun b =>
    match table.lookup b key with
    | .found _ currIdx => some currIdx
    | _ => none

variable {table table' : NosKvTable} {chain : ℕ → List ℕ} {key : Bytes} {sub : NosKvSub} {b i : ℕ}
  {st : NosStatus}

theorem Inv.record_eq_some (h : table.Inv chain) (hk : key.length = table.keySize)
    (hb : b < table.bucketCount) (hi : i ∈ chain b) (hkey : table.keyAt i = key) :
    table.record key = some i := by
  have hhome := h.home b hb i hi
  rw [hkey] at hhome
  rcases h.lookup hk hb with ⟨-, habsent⟩ | ⟨l₁, j, l₂, hc, hj, hw⟩
  · exact absurd hkey (habsent i hi)
  · obtain rfl := h.key_unique b hb i hi j (by simp [hc]) (hkey.trans hj.symm)
    simp [record, hhome, hw]

theorem Inv.record_eq_none (h : table.Inv chain) (hk : key.length = table.keySize)
    (hb : table.bucketOf key = some b) (habsent : ∀ i ∈ chain b, table.keyAt i ≠ key) :
    table.record key = none := by
  rcases h.lookup hk (h.geometry.bucketOf_lt hb) with ⟨hw, -⟩ | ⟨l₁, j, l₂, hc, hj, -⟩
  · simp [record, hb, hw]
  · exact absurd hj (habsent j (by simp [hc]))

theorem Inv.of_record (h : table.Inv chain) (hk : key.length = table.keySize)
    (hr : table.record key = some i) :
    ∃ b, table.bucketOf key = some b ∧ b < table.bucketCount ∧ i ∈ chain b ∧
      table.keyAt i = key := by
  obtain ⟨b, hb, hr⟩ := Option.bind_eq_some_iff.mp hr
  have hlt := h.geometry.bucketOf_lt hb
  rcases h.lookup hk hlt with ⟨hw, -⟩ | ⟨l₁, j, l₂, hc, hj, hw⟩
  · rw [hw] at hr
    cases hr
  · rw [hw] at hr
    cases hr
    exact ⟨b, hb, hlt, by simp [hc], hj⟩

theorem nosKvSubscribe_record (h : table.nosKvSubscribe key sub = some (st, table')) :
    table' = match table.record key with
      | some i =>
        if sub.notify = 0 ∨ sub ∈ (table.getEntry i).subList then table
        else table.setSubList i (sub :: (table.getEntry i).subList)
      | none => table := by
  unfold nosKvSubscribe at h
  split at h
  · rename_i hnull
    cases h
    cases table.record key <;> simp [hnull]
  · rename_i hnull
    obtain ⟨b, hb, ⟨hw, rfl⟩ | ⟨prev, i, hw, h⟩⟩ := lookup_cases h
    · simp [record, hb, hw]
    · simp only [record, hb, hw, hnull, Option.bind_some, false_or]
      dsimp only at h
      split at h <;> cases h
      · rw [if_pos ‹_›]
      · rw [if_neg ‹_›]

theorem nosKvUnsubscribe_record (h : table.nosKvUnsubscribe key sub = some (st, table')) :
    table' = match table.record key with
      | some i =>
        if sub.notify = 0 ∨ sub ∉ (table.getEntry i).subList then table
        else table.setSubList i ((table.getEntry i).subList.erase sub)
      | none => table := by
  unfold nosKvUnsubscribe at h
  split at h
  · rename_i hnull
    cases h
    cases table.record key <;> simp [hnull]
  · rename_i hnull
    obtain ⟨b, hb, ⟨hw, rfl⟩ | ⟨prev, i, hw, h⟩⟩ := lookup_cases h
    · simp [record, hb, hw]
    · simp only [record, hb, hw, hnull, Option.bind_some, false_or]
      dsimp only at h
      split at h <;> cases h
      · rw [if_neg (not_not.mpr ‹_›)]
      · rw [if_pos ‹_›]

theorem Inv.nosKvDel_record (h : table.Inv chain) (hk : key.length = table.keySize)
    (hdel : table.nosKvDel key = some (st, table')) :
    (table.record key = none ∧ table' = table) ∨
      ∃ i b l₁ l₂, table.record key = some i ∧ b < table.bucketCount ∧ chain b = l₁ ++ i :: l₂ ∧
        table.keyAt i = key ∧ table' = table.delete b (l₁.getLastD kvInvalidIdx) i := by
  obtain ⟨b, hb, hdel⟩ := Option.bind_eq_some_iff.mp hdel
  have hlt := h.geometry.bucketOf_lt hb
  split at hdel
  · cases hdel
  · rcases h.lookup hk hlt with ⟨hw, habsent⟩ | ⟨l₁, i, l₂, hc, hi, hw⟩
    · rw [hw] at hdel
      cases hdel
      exact Or.inl ⟨h.record_eq_none hk hb habsent, rfl⟩
    · rw [hw] at hdel
      cases hdel
      exact Or.inr ⟨i, b, l₁, l₂, h.record_eq_some hk hlt (by simp [hc]) hi, hlt, hc, hi, rfl⟩

theorem Inv.subList_overwrite (h : table.Inv chain) {j : ℕ} {val : Option Bytes} {valLen : ℕ}
    (hb : b < table.bucketCount) (hi : i ∈ chain b) (hj : j < table.capacity) :
    ((table.overwrite i val valLen).getEntry j).subList = (table.getEntry j).subList := by
  by_cases hne : j = i
  · subst hne
    rw [NosKvTable.overwrite, getEntry_setEntry_self]
  · rw [h.getEntry_overwrite_of_ne hb hi hj hne]

theorem Inv.subList_setSubList (h : table.Inv chain) {j : ℕ} {subs : List NosKvSub}
    (hi : i < table.capacity) (hj : j < table.capacity) :
    ((table.setSubList i subs).getEntry j).subList =
      if j = i then subs else (table.getEntry j).subList := by
  rw [getEntry_setSubList]
  by_cases hne : j = i
  · rw [hne, if_pos rfl, if_pos rfl]
  · rw [if_neg hne, if_neg fun he => hne (h.geometry.entryOffset_inj hj hi he)]

end NosKvTable

/-- The linked nodes are allocated, and each is linked once. -/
structure SubHeap (nodes : ℕ → Option NosKvSub) (subList : ℕ → List ℕ) : Prop where
  allocated : ∀ i, ∀ addr ∈ subList i, (nodes addr).isSome
  distinct : ∀ i, (subList i).Nodup
  apart : ∀ i j addr, addr ∈ subList i → addr ∈ subList j → i = j

namespace SubHeap

variable {nodes : ℕ → Option NosKvSub} {subList : ℕ → List ℕ} {i j addr : ℕ} {sub : NosKvSub}
  {freed kept : List ℕ}

theorem shrink (h : SubHeap nodes subList) (hkept : kept.Sublist (subList i))
    (hfreed : ∀ addr ∈ freed, addr ∈ subList i ∧ addr ∉ kept) :
    SubHeap (fun addr => if addr ∈ freed then none else nodes addr)
      (Function.update subList i kept) := by
  have hsub : ∀ j, (Function.update subList i kept j).Sublist (subList j) := by
    intro j
    rw [Function.update_apply]
    split
    · exact ‹j = i› ▸ hkept
    · exact List.Sublist.refl _
  refine ⟨fun j addr hj => ?_, fun j => (h.distinct j).sublist (hsub j), fun j k addr hj hk =>
    h.apart j k addr ((hsub j).subset hj) ((hsub k).subset hk)⟩
  rw [if_neg]
  · exact h.allocated j addr ((hsub j).subset hj)
  · intro hmem
    obtain ⟨hi, hnot⟩ := hfreed addr hmem
    obtain rfl := h.apart j i addr ((hsub j).subset hj) hi
    rw [Function.update_self] at hj
    exact hnot hj

theorem grow (h : SubHeap nodes subList) (hnew : nodes addr = none) :
    SubHeap (Function.update nodes addr (some sub))
      (Function.update subList i (addr :: subList i)) := by
  have hold : ∀ j, addr ∉ subList j := fun j hj => by simpa [hnew] using h.allocated j addr hj
  have hmem : ∀ {j a}, a ∈ Function.update subList i (addr :: subList i) j ↔
      (j = i ∧ a = addr) ∨ a ∈ subList j := by
    intro j a
    rw [Function.update_apply]
    split <;> simp [*]
  refine ⟨fun j a ha => ?_, fun j => ?_, fun j k a hj hk => ?_⟩
  · rw [Function.update_apply]
    split
    · rfl
    · rcases hmem.mp ha with ⟨-, rfl⟩ | ha
      · contradiction
      · exact h.allocated j a ha
  · rw [Function.update_apply]
    split
    · exact List.nodup_cons.mpr ⟨hold i, h.distinct i⟩
    · exact h.distinct j
  · rcases hmem.mp hj with ⟨hji, haj⟩ | hj' <;> rcases hmem.mp hk with ⟨hki, hak⟩ | hk'
    · rw [hji, hki]
    · exact absurd (haj ▸ hk') (hold k)
    · exact absurd (hak ▸ hj') (hold j)
    · exact h.apart j k a hj' hk'

theorem map_free (h : SubHeap nodes subList) (hfreed : ∀ addr ∈ freed, addr ∈ subList i)
    (hj : j ≠ i) : (subList j).map (fun addr => if addr ∈ freed then none else nodes addr) =
      (subList j).map nodes :=
  List.map_congr_left fun addr haddr =>
    if_neg fun hmem => hj (h.apart j i addr haddr (hfreed addr hmem))

/-- The first node of a subscriber is the node of its first subscription. -/
theorem map_erase_find {l : List ℕ} {subs : List NosKvSub} (hl : l.Nodup)
    (h : l.map nodes = subs.map some) (hfind : l.find? (nodes · = some sub) = some addr) :
    (l.erase addr).map nodes = (subs.erase sub).map some := by
  induction l generalizing subs with
  | nil => cases hfind
  | cons a l ih =>
    obtain _ | ⟨x, subs⟩ := subs
    · cases h
    obtain ⟨hx, htail⟩ := List.cons.inj h
    rw [List.find?_cons] at hfind
    by_cases hsub : x = sub
    · subst hsub
      simp only [hx, decide_true, Option.some.injEq] at hfind
      subst hfind
      simpa using htail
    · have hne : nodes a ≠ some sub := by simpa [hx] using hsub
      simp only [hne, decide_false] at hfind
      have haddr : a ≠ addr :=
        ne_of_mem_of_not_mem (List.mem_of_find?_eq_some hfind) (List.nodup_cons.mp hl).1 |>.symm
      rw [List.erase_cons_tail (by simpa using haddr), List.erase_cons_tail (by simpa using hsub),
        List.map_cons, List.map_cons, hx, ih (List.nodup_cons.mp hl).2 htail hfind]

end SubHeap

namespace KvNodes

def start (table : NosKvTable) : KvNodes := ⟨table, fun _ => none, fun _ => [], []⟩

/-- A call can be made: no put is between its copy and its first callback, or between two of
them. -/
def Ready (s : KvNodes) : Prop := ∀ f ∈ s.frames.head?, f.running = true

instance (s : KvNodes) : Decidable s.Ready :=
  inferInstanceAs (Decidable (∀ f ∈ s.frames.head?, f.running = true))

def freed (s : KvNodes) : KvNodeAction → List ℕ
  | .unsubscribe key sub =>
    match s.table.record key with
    | some i => if sub.notify = 0 then [] else ((s.subList i).find? (s.nodes · = some sub)).toList
    | none => []
  | .del key =>
    match s.table.record key with
    | some i => s.subList i
    | none => []
  | _ => []

def free (s : KvNodes) (addrs : List ℕ) : ℕ → Option NosKvSub :=
  fun addr => if addr ∈ addrs then none else s.nodes addr

/-- What a call does after the parts that `NosKvTable` describes. -/
def call (s : KvNodes) : KvNodeAction → Option KvNodes
  | .put key val valLen =>
    (s.table.nosKvPut key val valLen).map fun r =>
      if r.1 ≠ .ok then { s with table := r.2.1 }
      else
        match s.table.record key with
        | some i => { s with table := r.2.1, frames := ⟨key, false, s.subList i⟩ :: s.frames }
        | none =>
          { s with table := r.2.1, subList := Function.update s.subList s.table.newIdx [] }
  | .subscribe key sub addr =>
    (s.table.nosKvSubscribe key sub).bind fun r =>
      match s.table.record key with
      | some i =>
        if sub.notify = 0 ∨ ∃ a ∈ s.subList i, s.nodes a = some sub then
          some { s with table := r.2 }
        else if (s.nodes addr).isSome then none
        else
          some { s with
            table := r.2
            nodes := Function.update s.nodes addr (some sub)
            subList := Function.update s.subList i (addr :: s.subList i) }
      | none => some { s with table := r.2 }
  | .unsubscribe key sub =>
    (s.table.nosKvUnsubscribe key sub).map fun r =>
      match s.table.record key with
      | some i =>
        { s with
          table := r.2
          nodes := s.free (s.freed (.unsubscribe key sub))
          subList := Function.update s.subList i
            ((s.subList i).diff (s.freed (.unsubscribe key sub))) }
      | none => { s with table := r.2 }
  | .del key =>
    (s.table.nosKvDel key).map fun r =>
      match s.table.record key with
      | some i =>
        { s with
          table := r.2
          nodes := s.free (s.freed (.del key))
          subList := Function.update s.subList i [] }
      | none => { s with table := r.2 }
  | _ => none

/-- One step. Keys have the key size of the table. The innermost put calls through its next
pointer, whatever is behind it, and returns when it has called through all of them. -/
def step (s : KvNodes) : KvNodeAction → Option KvNodes
  | .notify =>
    match s.frames with
    | ⟨key, _, _ :: subs⟩ :: frames => some { s with frames := ⟨key, true, subs⟩ :: frames }
    | _ => none
  | .ret =>
    match s.frames with
    | ⟨_, _, []⟩ :: frames => some { s with frames := frames }
    | _ => none
  | a => if s.Ready ∧ ∀ key ∈ a.key?, key.length = s.table.keySize then s.call a else none

/-- No call frees a node that a put in progress has still to call through. -/
def SparesPending (s : KvNodes) (a : KvNodeAction) : Prop :=
  ∀ addr ∈ s.freed a, ∀ f ∈ s.frames, addr ∉ f.subs

/-- A callback is called through a node that is allocated, and that is still linked from the record
of the key. -/
def NotifiesSubscribed (s : KvNodes) (a : KvNodeAction) : Prop :=
  a = .notify → ∀ f ∈ s.frames.head?, ∀ addr ∈ f.subs.head?,
    (s.nodes addr).isSome ∧ ∃ i, s.table.record f.key = some i ∧ addr ∈ s.subList i

variable {s s' : KvNodes} {chain : ℕ → List ℕ} {key : Bytes} {sub : NosKvSub} {b i j addr : ℕ}
  {l₁ l₂ : List ℕ} {f : KvPutFrame} {a : KvNodeAction}

/-- The pointers of a put in progress are linked from the record of its key. -/
def Linked (table : NosKvTable) (subList : ℕ → List ℕ) (chain : ℕ → List ℕ) (f : KvPutFrame) :
    Prop :=
  f.subs = [] ∨
    ∃ b < table.bucketCount, ∃ i ∈ chain b, table.keyAt i = f.key ∧ f.subs ⊆ subList i

/-- The nodes hold the subscribers of their records, and no put in progress has a pointer to another
one. -/
structure Sound (s : KvNodes) (chain : ℕ → List ℕ) : Prop where
  inv : s.table.Inv chain
  heap : SubHeap s.nodes s.subList
  agrees : ∀ b < s.table.bucketCount, ∀ i ∈ chain b,
    (s.subList i).map s.nodes = (s.table.getEntry i).subList.map some
  key_length : ∀ f ∈ s.frames, f.key.length = s.table.keySize
  linked : ∀ f ∈ s.frames, Linked s.table s.subList chain f

theorem Sound.overwrite (h : s.Sound chain) {val : Option Bytes} {valLen : ℕ}
    (hb : b < s.table.bucketCount) (hi : i ∈ chain b) (hv : valLen ≤ s.table.maxValSize)
    (hkey : s.table.keyAt i = key) (hk : key.length = s.table.keySize) :
    Sound { s with
      table := s.table.overwrite i val valLen
      frames := ⟨key, false, s.subList i⟩ :: s.frames } chain where
  inv := h.inv.overwrite hb hi hv
  heap := h.heap
  agrees b' hb' j hj := by
    rw [h.inv.subList_overwrite hb hi (h.inv.used_lt b' hb' j hj)]
    exact h.agrees b' hb' j hj
  key_length := List.forall_mem_cons.mpr ⟨hk, h.key_length⟩
  linked := by
    have hsame : ∀ f, Linked s.table s.subList chain f →
        Linked (s.table.overwrite i val valLen) s.subList chain f := by
      rintro f (hnil | ⟨b', hb', j, hj, hkj, hsub⟩)
      · exact Or.inl hnil
      · refine Or.inr ⟨b', hb', j, hj, ?_, hsub⟩
        rw [h.inv.keyAt_overwrite hb hi (h.inv.used_lt b' hb' j hj), hkj]
    refine List.forall_mem_cons.mpr ⟨hsame _ ?_, fun f hf => hsame f (h.linked f hf)⟩
    exact Or.inr ⟨b, hb, i, hi, hkey, List.Subset.refl _⟩

theorem Sound.insertNew (h : s.Sound chain) {val : Option Bytes} {valLen : ℕ}
    (hb : s.table.bucketOf key = some b) (hk : key.length = s.table.keySize)
    (hv : valLen ≤ s.table.maxValSize) (habsent : ∀ i ∈ chain b, s.table.keyAt i ≠ key)
    (ht : ¬ s.table.freeTop < 0) :
    Sound { s with
      table := s.table.insertNew b key val valLen
      subList := Function.update s.subList s.table.newIdx [] } (s.table.chainInsert chain b) where
  inv := h.inv.insertNew ht hb hk hv habsent
  heap := by
    have hfreed : ∀ addr ∈ ([] : List ℕ), addr ∈ s.subList s.table.newIdx ∧
        addr ∉ ([] : List ℕ) := by simp
    have hshrink := h.heap.shrink (List.nil_sublist _) hfreed
    simpa using hshrink
  agrees b' hb' j hj := by
    rcases NosKvTable.mem_chainInsert.mp hj with hj | ⟨rfl, -⟩
    · have hne : j ≠ s.table.newIdx := ne_of_mem_of_not_mem hj (h.inv.newIdx_notMem ht hb')
      rw [h.inv.getEntry_insertNew_of_mem ht hb' hj]
      simp only [Function.update_of_ne hne]
      exact h.agrees b' hb' j hj
    · rw [NosKvTable.getEntry_insertNew_self]
      simp
  key_length := h.key_length
  linked f hf := by
    rcases h.linked f hf with hnil | ⟨b', hb', j, hj, hkj, hsub⟩
    · exact Or.inl hnil
    · have hne : j ≠ s.table.newIdx := ne_of_mem_of_not_mem hj (h.inv.newIdx_notMem ht hb')
      refine Or.inr ⟨b', hb', j, NosKvTable.mem_chainInsert.mpr (Or.inl hj), ?_, ?_⟩
      · rw [h.inv.keyAt_insertNew_of_mem ht hb' hj, hkj]
      · simp only [Function.update_of_ne hne]
        exact hsub

theorem Sound.put (h : s.Sound chain) {val : Option Bytes} {valLen : ℕ}
    (hk : key.length = s.table.keySize) (hs : s.call (.put key val valLen) = some s') :
    ∃ chain', s'.Sound chain' := by
  obtain ⟨⟨st, table', notified⟩, hput, rfl⟩ := Option.map_eq_some_iff.mp hs
  rcases h.inv.nosKvPut_cases hk hput with ⟨hst, rfl, -⟩ | ⟨b, hb, hv, rfl, hcase⟩
  · exact ⟨chain, by simpa [hst] using h⟩
  · have hlt := h.inv.geometry.bucketOf_lt hb
    rcases hcase with ⟨i, hi, hkey, rfl, -⟩ | ⟨habsent, ht, rfl, -⟩
    · refine ⟨chain, ?_⟩
      simp only [h.inv.record_eq_some hk hlt hi hkey]
      exact h.overwrite hlt hi hv hkey hk
    · refine ⟨s.table.chainInsert chain b, ?_⟩
      simp only [h.inv.record_eq_none hk hb habsent]
      exact h.insertNew hb hk hv habsent ht

theorem Sound.mem_subs_iff (h : s.Sound chain) (hb : b < s.table.bucketCount) (hi : i ∈ chain b) :
    (∃ addr ∈ s.subList i, s.nodes addr = some sub) ↔ sub ∈ (s.table.getEntry i).subList := by
  rw [← List.mem_map, h.agrees b hb i hi, List.mem_map_of_injective (Option.some_injective _)]

theorem Sound.subscribe (h : s.Sound chain) (hk : key.length = s.table.keySize)
    (hs : s.call (.subscribe key sub addr) = some s') : s'.Sound chain := by
  obtain ⟨⟨st, table'⟩, hsub, hs⟩ := Option.bind_eq_some_iff.mp hs
  have htable := NosKvTable.nosKvSubscribe_record hsub
  cases hr : s.table.record key with
  | none =>
    simp only [hr] at hs htable
    obtain rfl := Option.some.inj hs
    exact htable ▸ h
  | some i =>
    obtain ⟨b, -, hb, hi, hkey⟩ := h.inv.of_record hk hr
    simp only [hr, h.mem_subs_iff hb hi] at hs htable
    split at hs
    · rw [if_pos ‹_›] at htable
      obtain rfl := Option.some.inj hs
      exact htable ▸ h
    · rw [if_neg ‹_›] at htable
      split at hs
      · cases hs
      · rename_i hnew
        rw [Option.not_isSome_iff_eq_none] at hnew
        obtain rfl := Option.some.inj hs
        subst htable
        have hcap := h.inv.used_lt b hb i hi
        constructor
        · exact h.inv.setSubList i _
        · exact h.heap.grow hnew
        · intro b' hb' j hj
          have hold : ∀ j, (s.subList j).map (Function.update s.nodes addr (some sub)) =
              (s.subList j).map s.nodes := by
            refine fun j => List.map_congr_left fun x hx => Function.update_of_ne ?_ _ _
            rintro rfl
            simpa [hnew] using h.heap.allocated j x hx
          rw [h.inv.subList_setSubList hcap (h.inv.used_lt b' hb' j hj)]
          by_cases hne : j = i
          · subst hne
            simp [hold, h.agrees b hb j hi]
          · simp only [Function.update_of_ne hne, hold, if_neg hne]
            exact h.agrees b' hb' j hj
        · exact h.key_length
        · intro f hf
          rcases h.linked f hf with hnil | ⟨b', hb', j, hj, hkj, hsubs⟩
          · exact Or.inl hnil
          · refine Or.inr ⟨b', hb', j, hj, ?_, fun x hx => ?_⟩
            · rw [NosKvTable.keyAt, NosKvTable.getEntry_setSubList]
              exact hkj
            · by_cases hne : j = i
              · subst hne
                simp [hsubs hx]
              · simp only [Function.update_of_ne hne]
                exact hsubs hx

/-- A call that leaves the other records alone, and takes nodes of one record away that no put in
progress has a pointer to. -/
theorem Sound.take (h : s.Sound chain) {table : NosKvTable} {chain' : ℕ → List ℕ}
    {freed kept : List ℕ} (hinv : table.Inv chain')
    (hcount : table.bucketCount = s.table.bucketCount)
    (hsize : table.keySize = s.table.keySize) (hkept : kept.Sublist (s.subList i))
    (hfreed : ∀ addr ∈ freed, addr ∈ s.subList i ∧ addr ∉ kept)
    (hspared : ∀ addr ∈ freed, ∀ f ∈ s.frames, addr ∉ f.subs)
    (hperm : ∀ addr ∈ s.subList i, addr ∈ freed ∨ addr ∈ kept)
    (hothers : ∀ b < s.table.bucketCount, ∀ j ∈ chain' b, j ≠ i →
      j ∈ chain b ∧ (table.getEntry j).subList = (s.table.getEntry j).subList)
    (hself : ∀ b < s.table.bucketCount, i ∈ chain' b →
      kept.map s.nodes = (table.getEntry i).subList.map some)
    (hstay : ∀ b < s.table.bucketCount, ∀ j ∈ chain b, (j = i → kept ≠ []) →
      j ∈ chain' b ∧ table.keyAt j = s.table.keyAt j) :
    Sound { s with
      table := table
      nodes := s.free freed
      subList := Function.update s.subList i kept } chain' where
  inv := hinv
  heap := h.heap.shrink hkept hfreed
  agrees b hb j hj := by
    rw [hcount] at hb
    by_cases hne : j = i
    · subst hne
      simp only [Function.update_self]
      rw [← hself b hb hj]
      refine List.map_congr_left fun addr haddr => if_neg fun hmem => ?_
      exact (hfreed addr hmem).2 haddr
    · obtain ⟨hjc, hsubs⟩ := hothers b hb j hj hne
      simp only [Function.update_of_ne hne]
      rw [hsubs, ← h.agrees b hb j hjc]
      exact h.heap.map_free (fun addr haddr => (hfreed addr haddr).1) hne
  key_length f hf := (h.key_length f hf).trans hsize.symm
  linked f hf := by
    rcases h.linked f hf with hnil | ⟨b, hb, j, hj, hkj, hsubs⟩
    · exact Or.inl hnil
    · by_cases hnil : f.subs = []
      · exact Or.inl hnil
      · have hsubs' : f.subs ⊆ Function.update s.subList i kept j := by
          intro addr haddr
          by_cases hne : j = i
          · subst hne
            rw [Function.update_self]
            exact (hperm addr (hsubs haddr)).resolve_left fun hmem => hspared addr hmem f hf haddr
          · rw [Function.update_of_ne hne]
            exact hsubs haddr
        obtain ⟨hj', hkey⟩ := hstay b hb j hj fun he hk => hnil (by
          rw [he, Function.update_self, hk] at hsubs'
          exact List.subset_nil.mp hsubs')
        exact Or.inr ⟨b, hcount ▸ hb, j, hj', hkey.trans hkj, hsubs'⟩

theorem Sound.unsubscribe (h : s.Sound chain) (hk : key.length = s.table.keySize)
    (hspared : s.SparesPending (.unsubscribe key sub))
    (hs : s.call (.unsubscribe key sub) = some s') : s'.Sound chain := by
  obtain ⟨⟨st, table'⟩, hsub, rfl⟩ := Option.map_eq_some_iff.mp hs
  have htable := NosKvTable.nosKvUnsubscribe_record hsub
  cases hr : s.table.record key with
  | none =>
    simp only [hr] at htable
    exact htable ▸ h
  | some i =>
    obtain ⟨b, -, hb, hi, hkey⟩ := h.inv.of_record hk hr
    have hcap := h.inv.used_lt b hb i hi
    have hunlinked : s.freed (.unsubscribe key sub) = [] ∧ table' = s.table ∨
        ∃ addr ∈ s.subList i, s.freed (.unsubscribe key sub) = [addr] ∧
          ((s.subList i).erase addr).map s.nodes =
            ((s.table.getEntry i).subList.erase sub).map some ∧
          table' = s.table.setSubList i ((s.table.getEntry i).subList.erase sub) := by
      simp only [hr, freed] at htable ⊢
      by_cases hnull : sub.notify = 0
      · simp only [hnull, true_or, if_true] at htable ⊢
        exact Or.inl ⟨trivial, htable⟩
      · simp only [hnull, false_or, if_false, ← h.mem_subs_iff hb hi] at htable ⊢
        cases hfind : (s.subList i).find? (s.nodes · = some sub) with
        | none =>
          refine Or.inl ⟨rfl, ?_⟩
          rw [List.find?_eq_none] at hfind
          rw [htable, if_pos]
          rintro ⟨addr, haddr, hn⟩
          exact hfind addr haddr (by simpa using hn)
        | some addr =>
          have hmem := List.mem_of_find?_eq_some hfind
          refine Or.inr ⟨addr, hmem, rfl, ?_, ?_⟩
          · exact SubHeap.map_erase_find (h.heap.distinct i) (h.agrees b hb i hi) hfind
          · rw [htable, if_neg (not_not.mpr ⟨addr, hmem, by simpa using List.find?_some hfind⟩)]
    dsimp only
    rcases hunlinked with ⟨hfreed, rfl⟩ | ⟨addr, haddr, hfreed, hmap, rfl⟩
    · have hnone : s.free [] = s.nodes := funext fun _ => if_neg List.not_mem_nil
      rw [hfreed, hnone, List.diff_nil, Function.update_eq_self]
      exact h
    · have hspared' := hspared
      unfold SparesPending at hspared'
      rw [hfreed] at hspared' ⊢
      rw [List.diff_cons, List.diff_nil]
      refine h.take (i := i) (h.inv.setSubList i _) rfl rfl List.erase_sublist ?_ hspared' ?_ ?_ ?_
        ?_
      · rintro x hx
        obtain rfl := List.mem_singleton.mp hx
        exact ⟨haddr, (h.heap.distinct i).not_mem_erase⟩
      · intro x hx
        by_cases he : x = addr
        · exact Or.inl (List.mem_singleton.mpr he)
        · exact Or.inr ((List.mem_erase_of_ne he).mpr hx)
      · intro b' hb' j hj hne
        refine ⟨hj, ?_⟩
        rw [h.inv.subList_setSubList hcap (h.inv.used_lt b' hb' j hj), if_neg hne]
      · intro b' hb' hi'
        rw [h.inv.subList_setSubList hcap hcap, if_pos rfl, hmap]
      · intro b' hb' j hj _
        refine ⟨hj, ?_⟩
        rw [NosKvTable.keyAt, NosKvTable.getEntry_setSubList]
        rfl

theorem Sound.del (h : s.Sound chain) (hk : key.length = s.table.keySize)
    (hspared : s.SparesPending (.del key)) (hs : s.call (.del key) = some s') :
    ∃ chain', s'.Sound chain' := by
  obtain ⟨⟨st, table'⟩, hdel, rfl⟩ := Option.map_eq_some_iff.mp hs
  rcases h.inv.nosKvDel_record hk hdel with ⟨hr, rfl⟩ | ⟨i, b, l₁, l₂, hr, hb, hc, hkey, rfl⟩
  · simp only [hr]
    exact ⟨chain, h⟩
  · have hfreed : s.freed (.del key) = s.subList i := by simp only [freed, hr]
    have hmem {j b'} : j ∈ NosKvTable.chainDelete chain b l₁ l₂ b' ↔
        j ∈ chain b' ∧ ¬ (j = i ∧ b' = b) :=
      NosKvTable.mem_chainDelete hc (h.inv.isChain b hb).nodup
    refine ⟨NosKvTable.chainDelete chain b l₁ l₂, ?_⟩
    unfold SparesPending at hspared
    simp only [hr]
    rw [hfreed] at hspared ⊢
    refine h.take (i := i) (h.inv.delete hb hc) NosKvTable.bucketCount_delete
      NosKvTable.keySize_delete (List.nil_sublist _) (fun x hx => ⟨hx, by simp⟩) hspared
      (fun x hx => Or.inl hx) ?_ ?_ ?_
    · intro b' hb' j hj hne
      obtain ⟨hj, -⟩ := hmem.mp hj
      refine ⟨hj, ?_⟩
      rw [h.inv.getEntry_delete hb hc (h.inv.used_lt b' hb' j hj), if_neg hne]
    · intro b' hb' hi'
      obtain ⟨hi', hne⟩ := hmem.mp hi'
      exact absurd ⟨rfl, h.inv.chain_eq hb' hb hi' (by simp [hc])⟩ hne
    · intro b' hb' j hj hne
      have hji : j ≠ i := fun he => hne he rfl
      exact ⟨hmem.mpr ⟨hj, fun he => hji he.1⟩,
        h.inv.keyAt_delete hb hc (h.inv.used_lt b' hb' j hj)⟩

theorem call_of_step {key : Bytes} (hkey : a.key? = some key) (hs : s.step a = some s') :
    key.length = s.table.keySize ∧ s.call a = some s' := by
  have hcall : (if s.Ready ∧ ∀ key ∈ a.key?, key.length = s.table.keySize then s.call a else none) =
      some s' := by
    cases a with
    | notify => cases hkey
    | ret => cases hkey
    | put => exact hs
    | subscribe => exact hs
    | unsubscribe => exact hs
    | del => exact hs
  split at hcall
  · rename_i hready
    exact ⟨hready.2 key hkey, hcall⟩
  · cases hcall

theorem Sound.notify (h : s.Sound chain) (hs : s.step .notify = some s') : s'.Sound chain := by
  simp only [KvNodes.step] at hs
  split at hs
  · rename_i key running x subs frames hframes
    obtain rfl := Option.some.inj hs
    obtain ⟨hfirst, hrest⟩ := List.forall_mem_cons.mp (hframes ▸ h.linked)
    obtain ⟨hlen, hlens⟩ := List.forall_mem_cons.mp (hframes ▸ h.key_length)
    refine ⟨h.inv, h.heap, h.agrees, List.forall_mem_cons.mpr ⟨hlen, hlens⟩,
      List.forall_mem_cons.mpr ⟨?_, hrest⟩⟩
    rcases hfirst with hnil | ⟨b, hb, i, hi, hkey, hsubs⟩
    · cases hnil
    · exact Or.inr ⟨b, hb, i, hi, hkey, fun y hy => hsubs (List.mem_cons_of_mem x hy)⟩
  · cases hs

theorem Sound.ret (h : s.Sound chain) (hs : s.step .ret = some s') : s'.Sound chain := by
  simp only [KvNodes.step] at hs
  split at hs
  · rename_i frames hframes
    obtain rfl := Option.some.inj hs
    exact ⟨h.inv, h.heap, h.agrees, (List.forall_mem_cons.mp (hframes ▸ h.key_length)).2,
      (List.forall_mem_cons.mp (hframes ▸ h.linked)).2⟩
  · cases hs

theorem Sound.step (h : s.Sound chain) (hspared : s.SparesPending a) (hs : s.step a = some s') :
    ∃ chain', s'.Sound chain' := by
  cases a with
  | put key =>
    obtain ⟨hk, hs⟩ := call_of_step rfl hs
    exact h.put hk hs
  | subscribe key =>
    obtain ⟨hk, hs⟩ := call_of_step rfl hs
    exact ⟨chain, h.subscribe hk hs⟩
  | unsubscribe key =>
    obtain ⟨hk, hs⟩ := call_of_step rfl hs
    exact ⟨chain, h.unsubscribe hk hspared hs⟩
  | del key =>
    obtain ⟨hk, hs⟩ := call_of_step rfl hs
    exact h.del hk hspared hs
  | notify => exact ⟨chain, h.notify hs⟩
  | ret => exact ⟨chain, h.ret hs⟩

/-- The next callback of a put is called through a node that is linked from the record of its
key. -/
theorem Sound.notifiesSubscribed (h : s.Sound chain) : s.NotifiesSubscribed a := by
  rintro - f hf addr haddr
  have hmem : f ∈ s.frames := List.mem_of_mem_head? hf
  have haddr' : addr ∈ f.subs := List.mem_of_mem_head? haddr
  rcases h.linked f hmem with hnil | ⟨b, hb, i, hi, hkey, hsubs⟩
  · rw [hnil] at haddr'
    cases haddr'
  · exact ⟨h.heap.allocated i addr (hsubs haddr'), i,
      h.inv.record_eq_some (h.key_length f hmem) hb hi hkey, hsubs haddr'⟩

theorem sound_start {table : NosKvTable} (h : table.Inv chain)
    (hsubs : ∀ i, (table.getEntry i).subList = []) : (start table).Sound chain where
  inv := h
  heap := by
    refine ⟨fun _ _ hmem => ?_, fun _ => List.nodup_nil, fun _ _ _ hmem => ?_⟩
    · cases hmem
    · cases hmem
  agrees _ _ i _ := by
    show [] = (table.getEntry i).subList.map some
    rw [hsubs i, List.map_nil]
  key_length _ hf := nomatch hf
  linked _ hf := nomatch hf

/-- In a run in which no call frees a node that a put has still to call through, every callback is
called through a node that is allocated and subscribed. -/
theorem notifiesSubscribed_of_sparesPending {tables : List NosKvTable} {name : Bytes}
    {keySize maxValSize capacity : ℕ} {memory : Bool} {table : NosKvTable}
    {actions : List KvNodeAction}
    (h : nosKvTableCreate tables name keySize maxValSize capacity memory =
      some (tables ++ [table], some tables.length))
    (hfit : capacity * (sizeofNosKvEntry + keySize + maxValSize) < 2 ^ 32)
    (hspared : Run.Guarded step SparesPending (start table) actions) :
    Run.Guarded step NotifiesSubscribed (start table) actions := by
  obtain ⟨hc, hnew⟩ := NosKvTable.newTable_of_create h
  have hsubs : ∀ i, (table.getEntry i).subList = [] := by
    obtain ⟨bucketCount, -, rfl⟩ := Option.map_eq_some_iff.mp hnew
    exact fun _ => rfl
  refine Run.Guarded.mono (I := fun s => ∃ chain, s.Sound chain) ?_ ?_
    ⟨_, sound_start (NosKvTable.inv_newTable hc hfit hnew) hsubs⟩ hspared
  · rintro s a s' ⟨chain, hsound⟩ hspared hs
    exact hsound.step hspared hs
  · rintro s a ⟨chain, hsound⟩ -
    exact hsound.notifiesSubscribed

/-- Two subscribers, and a callback that unsubscribes itself. -/
theorem notifiesSubscribed_self_unsubscribe : ∃ table,
    nosKvTableCreate [] [107, 118] 1 8 2 true = some ([] ++ [table], some 0) ∧
      Run.Guarded step NotifiesSubscribed (start table)
        [.put [1] none 0, .subscribe [1] ⟨1, 5⟩ 64, .subscribe [1] ⟨2, 5⟩ 96,
          .put [1] (some [7]) 1, .notify, .unsubscribe [1] ⟨2, 5⟩, .notify, .ret] := by
  have hcreate : nosKvTableCreate [] [107, 118] 1 8 2 true =
      some ([] ++ [(newTable [107, 118] 1 8 2).get rfl], some ([] : List NosKvTable).length) := rfl
  refine ⟨_, hcreate, notifiesSubscribed_of_sparesPending hcreate (by decide) ?_⟩
  iterate 5 refine .cons rfl (by rintro _ ⟨⟩) ?_
  refine .cons rfl ?_ ?_
  · unfold SparesPending
    decide
  · iterate 2 refine .cons rfl (by rintro _ ⟨⟩) ?_
    trivial

/-- The first callback unsubscribes the second subscriber, and the put calls through a freed
node. -/
theorem notifies_freed_node : ∃ table,
    nosKvTableCreate [] [107, 118] 1 8 2 true = some ([] ++ [table], some 0) ∧
      ¬ Run.Guarded step NotifiesSubscribed (start table)
        [.put [1] none 0, .subscribe [1] ⟨1, 5⟩ 64, .subscribe [1] ⟨2, 5⟩ 96,
          .put [1] (some [7]) 1, .notify, .unsubscribe [1] ⟨1, 5⟩, .notify] := by
  refine ⟨(newTable [107, 118] 1 8 2).get rfl, rfl, fun h => ?_⟩
  have h₁ := (h _ rfl).2
  have h₂ := (h₁ _ rfl).2
  have h₃ := (h₂ _ rfl).2
  have h₄ := (h₃ _ rfl).2
  have h₅ := (h₄ _ rfl).2
  have h₆ := (h₅ _ rfl).2
  have hlast := (h₆ _ rfl).1 rfl _ rfl _ rfl
  exact absurd hlast.1 (by decide)

end KvNodes

end GeminiNOS

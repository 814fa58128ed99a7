import GeminiNOS.Kv.SubscriberNodes

/-! # The end of a table

At its end the database walks the buckets of a table and frees the subscriber nodes of
every record it meets. What a table has allocated is linked from its live records
alone, so the walk frees each node once and leaves none.
-/

namespace GeminiNOS

open Foundations IndexChain

namespace NosKvTable

def InUse (table : NosKvTable) (i : ℕ) : Prop :=
  ∃ b < table.bucketCount, ∃ l,
    IsChain table.next kvInvalidIdx (table.buckets b).firstIdx l ∧ i ∈ l

/-- The loop over the records of a bucket, for a number of rounds. -/
def bucketRecords (table : NosKvTable) : ℕ → ℕ → Option (List ℕ)
  | 0, currIdx => if currIdx = kvInvalidIdx then some [] else none
  | rounds + 1, currIdx =>
    if currIdx = kvInvalidIdx then some []
    else (table.bucketRecords rounds (table.next currIdx)).map (currIdx :: ·)

variable {table : NosKvTable} {chain : ℕ → List ℕ} {i b rounds head : ℕ} {l : List ℕ}

theorem Inv.inUse_iff (h : table.Inv chain) :
    table.InUse i ↔ ∃ b < table.bucketCount, i ∈ chain b := by
  constructor
  · rintro ⟨b, hb, l, hl, hi⟩
    rw [hl.unique (h.isChain b hb)] at hi
    exact ⟨b, hb, hi⟩
  · rintro ⟨b, hb, hi⟩
    exact ⟨b, hb, chain b, h.isChain b hb, hi⟩

/-- The loop ends within as many rounds as the bucket has records. -/
theorem bucketRecords_of_isChain (h : IsChain table.next kvInvalidIdx head l)
    (hlen : l.length ≤ rounds) : table.bucketRecords rounds head = some l := by
  induction l generalizing head rounds with
  | nil =>
    obtain rfl : head = kvInvalidIdx := h
    cases rounds <;> simp [bucketRecords]
  | cons i l ih =>
    obtain ⟨rfl, hne, h⟩ := h
    cases rounds with
    | zero => cases hlen
    | succ rounds =>
      rw [bucketRecords, if_neg hne, ih h (Nat.le_of_succ_le_succ hlen), Option.map_some]

end NosKvTable

namespace KvNodes

/-- Free nodes one after another. To free what is not allocated is undefined. -/
def freeNodes : (ℕ → Option NosKvSub) → List ℕ → Option (ℕ → Option NosKvSub)
  | nodes, [] => some nodes
  | nodes, addr :: addrs =>
    match nodes addr with
    | none => none
    | some _ => freeNodes (Function.update nodes addr none) addrs

/-- The loop of `nos_kv_db_deinit` over the buckets of a table. -/
def deinitBuckets (s : KvNodes) (rounds : ℕ) :
    List ℕ → (ℕ → Option NosKvSub) → Option (ℕ → Option NosKvSub)
  | [], nodes => some nodes
  | b :: bs, nodes =>
    (s.table.bucketRecords rounds (s.table.buckets b).firstIdx).bind fun l =>
      (freeNodes nodes (l.flatMap s.subList)).bind fun nodes => s.deinitBuckets rounds bs nodes

/-- What `nos_kv_db_deinit` leaves allocated of the nodes of a table. -/
def nosKvDbDeinit (s : KvNodes) (rounds : ℕ) : Option (ℕ → Option NosKvSub) :=
  s.deinitBuckets rounds (List.range s.table.bucketCount) s.nodes

/-- Every node that is allocated is linked from a record in use. -/
def NoLeak (s : KvNodes) : Prop :=
  ∀ addr, (s.nodes addr).isSome → ∃ i, s.table.InUse i ∧ addr ∈ s.subList i

variable {s s' : KvNodes} {chain : ℕ → List ℕ} {key : Bytes} {sub : NosKvSub} {i addr : ℕ}
  {a : KvNodeAction} {nodes : ℕ → Option NosKvSub} {addrs : List ℕ}

theorem NoLeak.put (hleak : s.NoLeak) (h : s.Sound chain) {val : Option Bytes} {valLen : ℕ}
    (hk : key.length = s.table.keySize) (hs : s.call (.put key val valLen) = some s') :
    s'.NoLeak := by
  obtain ⟨⟨st, table', notified⟩, hput, rfl⟩ := Option.map_eq_some_iff.mp hs
  rcases h.inv.nosKvPut_cases hk hput with ⟨hst, rfl, -⟩ | ⟨b, hb, hv, rfl, hcase⟩
  · simpa [hst] using hleak
  · have hlt := h.inv.geometry.bucketOf_lt hb
    rcases hcase with ⟨j, hj, hkey, rfl, -⟩ | ⟨habsent, ht, rfl, -⟩
    · simp only [h.inv.record_eq_some hk hlt hj hkey]
      intro addr haddr
      obtain ⟨i, hi, hmem⟩ := hleak addr haddr
      exact ⟨i, (h.inv.overwrite hlt hj hv).inUse_iff.mpr (h.inv.inUse_iff.mp hi), hmem⟩
    · simp only [h.inv.record_eq_none hk hb habsent, ne_eq, not_true_eq_false, if_false]
      intro addr haddr
      obtain ⟨i, hi, hmem⟩ := hleak addr haddr
      obtain ⟨b', hb', hi⟩ := h.inv.inUse_iff.mp hi
      have hne : i ≠ s.table.newIdx := ne_of_mem_of_not_mem hi (h.inv.newIdx_notMem ht hb')
      refine ⟨i, (h.inv.insertNew ht hb hk hv habsent).inUse_iff.mpr ⟨b', hb', ?_⟩, ?_⟩
      · exact NosKvTable.mem_chainInsert.mpr (Or.inl hi)
      · simpa only [Function.update_of_ne hne] using hmem

theorem NoLeak.subscribe (hleak : s.NoLeak) (h : s.Sound chain)
    (hk : key.length = s.table.keySize)
    (hs : s.call (.subscribe key sub addr) = some s') : s'.NoLeak := by
  obtain ⟨⟨st, table'⟩, hsub, hs⟩ := Option.bind_eq_some_iff.mp hs
  have htable := NosKvTable.nosKvSubscribe_record hsub
  cases hr : s.table.record key with
  | none =>
    simp only [hr] at hs htable
    obtain rfl := Option.some.inj hs
    exact htable ▸ hleak
  | some j =>
    obtain ⟨b, -, hb, hj, hkey⟩ := h.inv.of_record hk hr
    simp only [hr, h.mem_subs_iff hb hj] at hs htable
    split at hs
    · rw [if_pos ‹_›] at htable
      obtain rfl := Option.some.inj hs
      exact htable ▸ hleak
    · rw [if_neg ‹_›] at htable
      split at hs
      · cases hs
      · obtain rfl := Option.some.inj hs
        subst htable
        intro x hx
        have hinv := h.inv.setSubList j (sub :: (s.table.getEntry j).subList)
        by_cases he : x = addr
        · subst he
          exact ⟨j, hinv.inUse_iff.mpr ⟨b, hb, hj⟩, by simp⟩
        · simp only [Function.update_of_ne he] at hx
          obtain ⟨i, hi, hmem⟩ := hleak x hx
          refine ⟨i, hinv.inUse_iff.mpr (h.inv.inUse_iff.mp hi), ?_⟩
          simp only [Function.update_apply]
          split
          · rename_i hij
            exact List.mem_cons_of_mem addr (hij ▸ hmem)
          · exact hmem

theorem NoLeak.unsubscribe (hleak : s.NoLeak) (h : s.Sound chain)
    (hk : key.length = s.table.keySize)
    (hs : s.call (.unsubscribe key sub) = some s') : s'.NoLeak := by
  obtain ⟨⟨st, table'⟩, hsub, rfl⟩ := Option.map_eq_some_iff.mp hs
  have htable := NosKvTable.nosKvUnsubscribe_record hsub
  cases hr : s.table.record key with
  | none =>
    simp only [hr] at htable
    exact htable ▸ hleak
  | some j =>
    obtain ⟨b, -, hb, hj, hkey⟩ := h.inv.of_record hk hr
    have hinv : table'.Inv chain ∧ table'.bucketCount = s.table.bucketCount := by
      simp only [hr] at htable
      split at htable
      · rw [htable]
        exact ⟨h.inv, rfl⟩
      · rw [htable]
        exact ⟨h.inv.setSubList j _, rfl⟩
    intro x hx
    dsimp only [free] at hx ⊢
    split at hx
    · cases hx
    · rename_i hkept
      obtain ⟨i, hi, hmem⟩ := hleak x hx
      obtain ⟨b', hb', hi⟩ := h.inv.inUse_iff.mp hi
      refine ⟨i, hinv.1.inUse_iff.mpr ⟨b', hinv.2 ▸ hb', hi⟩, ?_⟩
      simp only [Function.update_apply]
      split
      · rename_i hij
        rw [← hij]
        exact List.mem_diff_of_mem hmem hkept
      · exact hmem

theorem NoLeak.del (hleak : s.NoLeak) (h : s.Sound chain) (hk : key.length = s.table.keySize)
    (hs : s.call (.del key) = some s') : s'.NoLeak := by
  obtain ⟨⟨st, table'⟩, hdel, rfl⟩ := Option.map_eq_some_iff.mp hs
  rcases h.inv.nosKvDel_record hk hdel with ⟨hr, rfl⟩ | ⟨j, b, l₁, l₂, hr, hb, hc, hkey, rfl⟩
  · simp only [hr]
    exact hleak
  · have hfreed : s.freed (.del key) = s.subList j := by simp only [freed, hr]
    simp only [hr]
    intro x hx
    dsimp only [free] at hx ⊢
    rw [hfreed] at hx
    split at hx
    · cases hx
    · rename_i hkept
      obtain ⟨i, hi, hmem⟩ := hleak x hx
      obtain ⟨b', hb', hi⟩ := h.inv.inUse_iff.mp hi
      have hne : i ≠ j := by
        rintro rfl
        exact hkept hmem
      refine ⟨i, (h.inv.delete hb hc).inUse_iff.mpr ⟨b', ?_, ?_⟩, ?_⟩
      · rwa [NosKvTable.bucketCount_delete]
      · rw [NosKvTable.mem_chainDelete hc (h.inv.isChain b hb).nodup]
        exact ⟨hi, fun he => hne he.1⟩
      · rwa [Function.update_of_ne hne]

theorem NoLeak.step (hleak : s.NoLeak) (h : s.Sound chain) (hs : s.step a = some s') :
    s'.NoLeak := by
  cases a with
  | put key =>
    obtain ⟨hk, hs⟩ := call_of_step rfl hs
    exact hleak.put h hk hs
  | subscribe key =>
    obtain ⟨hk, hs⟩ := call_of_step rfl hs
    exact hleak.subscribe h hk hs
  | unsubscribe key =>
    obtain ⟨hk, hs⟩ := call_of_step rfl hs
    exact hleak.unsubscribe h hk hs
  | del key =>
    obtain ⟨hk, hs⟩ := call_of_step rfl hs
    exact hleak.del h hk hs
  | notify =>
    simp only [KvNodes.step] at hs
    split at hs
    · obtain rfl := Option.some.inj hs
      exact hleak
    · cases hs
  | ret =>
    simp only [KvNodes.step] at hs
    split at hs
    · obtain rfl := Option.some.inj hs
      exact hleak
    · cases hs

theorem freeNodes_append {addrs' : List ℕ} :
    freeNodes nodes (addrs ++ addrs') =
      (freeNodes nodes addrs).bind fun nodes => freeNodes nodes addrs' := by
  induction addrs generalizing nodes with
  | nil => rfl
  | cons addr addrs ih =>
    rw [List.cons_append, freeNodes, freeNodes]
    split
    · rfl
    · exact ih

theorem freeNodes_eq_some (hnodup : addrs.Nodup) (h : ∀ addr ∈ addrs, (nodes addr).isSome) :
    freeNodes nodes addrs = some fun addr => if addr ∈ addrs then none else nodes addr := by
  induction addrs generalizing nodes with
  | nil => simp [freeNodes]
  | cons addr addrs ih =>
    obtain ⟨hnot, hnodup⟩ := List.nodup_cons.mp hnodup
    obtain ⟨sub, hsub⟩ := Option.isSome_iff_exists.mp (h addr List.mem_cons_self)
    rw [freeNodes, hsub]
    dsimp only
    rw [ih hnodup]
    · congr 1
      funext x
      by_cases he : x = addr
      · simp [he]
      · simp [he]
    · intro x hx
      rw [Function.update_of_ne (ne_of_mem_of_not_mem hx hnot)]
      exact h x (List.mem_cons_of_mem addr hx)

theorem deinitBuckets_eq {rounds : ℕ} {bs : List ℕ}
    (h : ∀ b ∈ bs, s.table.bucketRecords rounds (s.table.buckets b).firstIdx = some (chain b)) :
    s.deinitBuckets rounds bs nodes =
      freeNodes nodes (bs.flatMap fun b => (chain b).flatMap s.subList) := by
  induction bs generalizing nodes with
  | nil => rfl
  | cons b bs ih =>
    rw [deinitBuckets, h b List.mem_cons_self, Option.bind_some, List.flatMap_cons,
      freeNodes_append]
    congr 1
    funext nodes
    exact ih fun b' hb' => h b' (List.mem_cons_of_mem b hb')

theorem Sound.nodup_walk (h : s.Sound chain) :
    ((List.range s.table.bucketCount).flatMap fun b => (chain b).flatMap s.subList).Nodup := by
  have hbucket : ∀ b < s.table.bucketCount, ((chain b).flatMap s.subList).Nodup := by
    intro b hb
    refine List.nodup_flatMap.mpr ⟨fun i _ => h.heap.distinct i, ?_⟩
    refine (h.inv.isChain b hb).nodup.imp fun {i j} hne x hi hj => ?_
    exact hne (h.heap.apart i j x hi hj)
  refine List.nodup_flatMap.mpr ⟨fun b hb => hbucket b (List.mem_range.mp hb), ?_⟩
  refine List.nodup_range.imp_of_mem fun {b b'} hb hb' hne x hx hx' => ?_
  obtain ⟨i, hi, hxi⟩ := List.mem_flatMap.mp hx
  obtain ⟨j, hj, hxj⟩ := List.mem_flatMap.mp hx'
  obtain rfl := h.heap.apart i j x hxi hxj
  exact hne (h.inv.chain_eq (List.mem_range.mp hb) (List.mem_range.mp hb') hi hj)

theorem Sound.nosKvDbDeinit (h : s.Sound chain) (hleak : s.NoLeak) :
    s.nosKvDbDeinit s.table.capacity = some fun _ => none := by
  have hwalk : ∀ b ∈ List.range s.table.bucketCount,
      s.table.bucketRecords s.table.capacity (s.table.buckets b).firstIdx = some (chain b) :=
    fun b hb => NosKvTable.bucketRecords_of_isChain (h.inv.isChain b (List.mem_range.mp hb))
      (h.inv.length_chain_le (List.mem_range.mp hb))
  rw [KvNodes.nosKvDbDeinit, deinitBuckets_eq hwalk, freeNodes_eq_some h.nodup_walk]
  · congr 1
    funext addr
    split
    · rfl
    · rename_i hnot
      rw [← Option.not_isSome_iff_eq_none]
      intro haddr
      obtain ⟨i, hi, hmem⟩ := hleak addr haddr
      obtain ⟨b, hb, hi⟩ := h.inv.inUse_iff.mp hi
      have hwalked := List.mem_flatMap.mpr ⟨i, hi, hmem⟩
      exact hnot (List.mem_flatMap.mpr ⟨b, List.mem_range.mpr hb, hwalked⟩)
  · intro addr haddr
    obtain ⟨b, -, haddr⟩ := List.mem_flatMap.mp haddr
    obtain ⟨i, -, haddr⟩ := List.mem_flatMap.mp haddr
    exact h.heap.allocated i addr haddr

/-- After any run on a new table in which no call frees a node that a put has still to call through,
the end of the database frees every node that is allocated once, and nothing else. -/
theorem deinit_frees_all {tables : List NosKvTable} {name : Bytes}
    {keySize maxValSize capacity : ℕ} {memory : Bool} {table : NosKvTable}
    {actions : List KvNodeAction}
    (h : nosKvTableCreate tables name keySize maxValSize capacity memory =
      some (tables ++ [table], some tables.length))
    (hfit : capacity * (sizeofNosKvEntry + keySize + maxValSize) < 2 ^ 32)
    (hspared : Run.Guarded step SparesPending (start table) actions) :
    Run.Always step (fun s => s.nosKvDbDeinit s.table.capacity = some fun _ => none)
      (start table) actions := by
  obtain ⟨hc, hnew⟩ := NosKvTable.newTable_of_create h
  have hsubs : ∀ i, (table.getEntry i).subList = [] := by
    obtain ⟨bucketCount, -, rfl⟩ := Option.map_eq_some_iff.mp hnew
    exact fun _ => rfl
  have hsound := sound_start (NosKvTable.inv_newTable hc hfit hnew) hsubs
  refine Run.always_of_guarded (I := fun s => s.NoLeak ∧ ∃ chain, s.Sound chain) ?_ ?_
    ⟨?_, _, hsound⟩ hspared
  · rintro s a s' ⟨hleak, chain, hsound⟩ hspared hs
    exact ⟨hleak.step hsound hs, hsound.step hspared hs⟩
  · rintro s ⟨hleak, chain, hsound⟩
    exact hsound.nosKvDbDeinit hleak
  · intro addr haddr
    cases haddr

/-- Two subscribers of one key, of which a callback unsubscribes one, and a key that is deleted. -/
theorem deinit_frees_all_after_unsubscribe : ∃ table,
    nosKvTableCreate [] [107, 118] 1 8 2 true = some ([] ++ [table], some 0) ∧
      Run.Always step (fun s => s.nosKvDbDeinit s.table.capacity = some fun _ => none)
        (start table) [.put [1] none 0, .subscribe [1] ⟨1, 5⟩ 64, .subscribe [1] ⟨2, 5⟩ 96,
          .put [1] (some [7]) 1, .notify, .unsubscribe [1] ⟨2, 5⟩, .notify, .ret] := by
  have hcreate : nosKvTableCreate [] [107, 118] 1 8 2 true =
      some ([] ++ [(newTable [107, 118] 1 8 2).get rfl], some ([] : List NosKvTable).length) := rfl
  refine ⟨_, hcreate, deinit_frees_all hcreate (by decide) ?_⟩
  iterate 5 refine .cons rfl (by rintro _ ⟨⟩) ?_
  refine .cons rfl ?_ ?_
  · unfold SparesPending
    decide
  · iterate 2 refine .cons rfl (by rintro _ ⟨⟩) ?_
    trivial

end KvNodes

end GeminiNOS

import GeminiNOS.Shm.NodeRegistry

/-! # Agreement of the nodes on their queues

Slots are claimed in order and never given back, and a node names only a slot that it
has claimed after it has seen the names of all slots before it. So every name occurs
once, in the slot of its node.
-/

namespace GeminiNOS.ShmNodes

open Foundations

variable {L : Type*} {s s' : ShmNodes L} {node name : Bytes} {i j : ℕ} {l : L}

/-- A name that a slot keeps whole and that differs from that of a slot without one. -/
def IsName (node : Bytes) : Prop := node ≠ [] ∧ node.length ≤ 31

def PcSound (s : ShmNodes L) (node : Bytes) : ShmInitPc → Prop
  | .scan i => IsName node ∧ ∀ k < i, s.inUse k = true ∧ s.nodeName k ≠ node
  | .compare i => IsName node ∧ s.inUse i = true ∧
    ∀ k < i, s.inUse k = true ∧ s.nodeName k ≠ node
  | .naming i => IsName node ∧ s.inUse i = true ∧ s.nodeName i = [] ∧ ∀ k, s.nodeName k ≠ node
  | .failed => ∀ k, s.nodeName k ≠ node
  | _ => True

/-- The slots in use are the first ones, a slot with a name is that of its node, and lookups have
returned the queues of slots with their names. -/
structure Inv (s : ShmNodes L) : Prop where
  inUse_lt : ∀ i, s.inUse i = true → i < maxShmNodes
  inUse_mono : ∀ i j, i < j → s.inUse j = true → s.inUse i = true
  inUse_of_name : ∀ i, s.nodeName i ≠ [] → s.inUse i = true
  name_inj : ∀ i j, s.nodeName i = s.nodeName j → s.nodeName i ≠ [] → i = j
  locals_iff : ∀ node i, (node, i) ∈ s.locals ↔ node ≠ [] ∧ s.nodeName i = node
  pcs : ∀ node, s.PcSound node (s.pc node)
  claim_inj : ∀ node node' i, s.pc node = .naming i → s.pc node' = .naming i → node = node'
  lookingUp : ∀ l name i, s.lookingUp l = some (name, i) → name ≠ []
  lookups : ∀ name i, (name, i) ∈ s.lookups → name ≠ [] ∧ s.nodeName i = name
  indices : ∀ i, s.LookedUp i → s.rxQueues i = s.expected i

theorem Inv.agreed (h : s.Inv) : s.Agreed where
  lookups := by
    intro name i hi
    obtain ⟨hne, hname⟩ := h.lookups name i hi
    refine ⟨(h.locals_iff name i).mpr ⟨hne, hname⟩, fun node hnode => ?_⟩
    rw [← ((h.locals_iff node i).mp hnode).2, hname]
  sameSlot := by
    intro node i j hi hj
    obtain ⟨hne, hi⟩ := (h.locals_iff node i).mp hi
    obtain ⟨-, hj⟩ := (h.locals_iff node j).mp hj
    exact h.name_inj i j (hi.trans hj.symm) (hi ▸ hne)
  restarts := by
    intro node i hi hpc
    have hfailed := h.pcs node
    rw [hpc] at hfailed
    exact hfailed i ((h.locals_iff node i).mp hi).2
  indices := h.indices

theorem Inv.init : (init : ShmNodes L).Inv where
  inUse_lt := by rintro i ⟨⟩
  inUse_mono := by rintro i j - ⟨⟩
  inUse_of_name := fun i hi => absurd rfl hi
  name_inj := fun i j _ hi => absurd rfl hi
  locals_iff := fun node i => iff_of_false List.not_mem_nil fun ⟨hne, he⟩ => hne he.symm
  pcs := fun _ => trivial
  claim_inj := by rintro node node' i ⟨⟩
  lookingUp := by rintro l name i ⟨⟩
  lookups := fun name i hi => absurd hi List.not_mem_nil
  indices := fun i ⟨name, hi⟩ => absurd hi List.not_mem_nil

theorem pc_setPc (node' : Bytes) (pc : ShmInitPc) :
    (s.setPc node pc).pc node' = if node' = node then pc else s.pc node' :=
  Function.update_apply ..

/-- What a node relies on stays so while slots are claimed and named, as long as none gets its name
and the slot that it is about to name gets no other. -/
theorem PcSound.frame {pc : ShmInitPc} (h : s.PcSound node pc)
    (hinUse : ∀ k, s.inUse k = true → s'.inUse k = true)
    (hname : ∀ k, s.nodeName k ≠ node → s'.nodeName k ≠ node)
    (hempty : ∀ k, pc = .naming k → s'.nodeName k = s.nodeName k) : s'.PcSound node pc := by
  cases pc with
  | scan i => exact ⟨h.1, fun k hk => ⟨hinUse k (h.2 k hk).1, hname k (h.2 k hk).2⟩⟩
  | compare i =>
    obtain ⟨hnode, hi, hbefore⟩ := h
    exact ⟨hnode, hinUse i hi, fun k hk =>
      ⟨hinUse k (hbefore k hk).1, hname k (hbefore k hk).2⟩⟩
  | naming i =>
    obtain ⟨hnode, hi, hnone, hfresh⟩ := h
    exact ⟨hnode, hinUse i hi, (hempty i rfl).trans hnone, fun k => hname k (hfresh k)⟩
  | failed => exact fun k => hname k (h k)
  | _ => trivial

theorem Inv.setPc (h : s.Inv) {pc : ShmInitPc} (hpc : s.PcSound node pc)
    (hnaming : ∀ i, pc ≠ .naming i) : (s.setPc node pc).Inv := by
  refine { h with pcs := fun node' => ?_, claim_inj := fun node₁ node₂ i h₁ h₂ => ?_ }
  · rw [pc_setPc]
    split
    · exact ‹node' = node› ▸ hpc
    · exact h.pcs node'
  · rw [pc_setPc] at h₁ h₂
    split at h₁
    · exact absurd h₁ (hnaming i)
    · split at h₂
      · exact absurd h₂ (hnaming i)
      · exact h.claim_inj node₁ node₂ i h₁ h₂

theorem nameless_of_not_inUse (h : s.Inv) (hi : s.inUse i = false) (hj : i ≤ j) :
    s.nodeName j = [] := by
  by_contra hne
  have hinUse := h.inUse_of_name j hne
  rcases Nat.lt_or_eq_of_le hj with hlt | rfl
  · rw [h.inUse_mono i j hlt hinUse] at hi
    cases hi
  · rw [hinUse] at hi
    cases hi

theorem Inv.claim (h : s.Inv) (hpc : s.pc node = .scan i) (hlt : i < maxShmNodes)
    (hfree : s.inUse i = false) :
    Inv ({ s with inUse := Function.update s.inUse i true }.setPc node (.naming i)) := by
  have hscan := h.pcs node
  rw [hpc] at hscan
  obtain ⟨hname, hbefore⟩ := hscan
  have hinUse : ∀ k, Function.update s.inUse i true k = true ↔ k = i ∨ s.inUse k = true := by
    intro k
    rw [Function.update_apply]
    split <;> simp [*]
  have hmono : ∀ k, s.inUse k = true → Function.update s.inUse i true k = true :=
    fun k hk => (hinUse k).mpr (.inr hk)
  have hnameless : ∀ k, i ≤ k → s.nodeName k = [] := fun k hk => nameless_of_not_inUse h hfree hk
  refine
    { h with
      inUse_lt := fun k hk => ?_
      inUse_mono := fun k m hkm hm => ?_
      inUse_of_name := fun k hk => hmono k (h.inUse_of_name k hk)
      pcs := fun node' => ?_
      claim_inj := fun node₁ node₂ k h₁ h₂ => ?_ }
  · rcases (hinUse k).mp hk with rfl | hk
    · exact hlt
    · exact h.inUse_lt k hk
  · rcases (hinUse m).mp hm with rfl | hm
    · exact hmono k (hbefore k hkm).1
    · exact hmono k (h.inUse_mono k m hkm hm)
  · rw [pc_setPc]
    split
    · obtain rfl := ‹node' = node›
      refine ⟨hname, (hinUse i).mpr (.inl rfl), hnameless i le_rfl, fun k => ?_⟩
      rcases Nat.lt_or_ge k i with hk | hk
      · exact (hbefore k hk).2
      · show s.nodeName k ≠ node'
        rw [hnameless k hk]
        exact hname.1.symm
    · exact (h.pcs node').frame hmono (fun _ hk => hk) fun _ _ => rfl
  · have hother : ∀ node', s.pc node' ≠ .naming i := by
      intro node' hp
      have hold := h.pcs node'
      rw [hp] at hold
      rw [hold.2.1] at hfree
      cases hfree
    rw [pc_setPc] at h₁ h₂
    split at h₁ <;> split at h₂
    · rw [‹node₁ = node›, ‹node₂ = node›]
    · cases h₁
      exact absurd h₂ (hother node₂)
    · cases h₂
      exact absurd h₁ (hother node₁)
    · exact h.claim_inj node₁ node₂ k h₁ h₂

theorem Inv.reuse (h : s.Inv) (hne : node ≠ []) (hi : s.nodeName i = node) :
    (s.setLocal node i).Inv := by
  refine { h with locals_iff := fun node' j => ?_ }
  constructor
  · intro hmem
    rcases List.mem_append.mp hmem with hmem | hmem
    · exact (h.locals_iff node' j).mp hmem
    · obtain ⟨rfl, rfl⟩ := Prod.mk.inj (List.mem_singleton.mp hmem)
      exact ⟨hne, hi⟩
  · intro hj
    exact List.mem_append_left _ ((h.locals_iff node' j).mpr hj)

theorem Inv.copyName (h : s.Inv) (hpc : s.pc node = .naming i) :
    Inv (({ s with nodeName := Function.update s.nodeName i (node.take 31) }.setLocal
      node i).setPc node (.resetHead i)) := by
  have hnaming := h.pcs node
  rw [hpc] at hnaming
  obtain ⟨⟨hne, hlen⟩, hinUse, hempty, hfresh⟩ := hnaming
  have hself : ∀ k, Function.update s.nodeName i (node.take 31) k =
      if k = i then node else s.nodeName k := by
    intro k
    rw [Function.update_apply, List.take_of_length_le hlen]
  have hother : ∀ node', node' ≠ node → ∀ k, s.nodeName k ≠ node' →
      Function.update s.nodeName i (node.take 31) k ≠ node' := by
    intro node' hnode k hk
    rw [hself]
    split
    · exact hnode.symm
    · exact hk
  refine
    { h with
      inUse_of_name := fun k hk => ?_
      name_inj := fun k m hkm hk => ?_
      locals_iff := fun node' k => ?_
      pcs := fun node' => ?_
      claim_inj := fun node₁ node₂ k h₁ h₂ => ?_
      lookups := fun name k hk => ?_ }
  · by_cases hki : k = i
    · exact hki ▸ hinUse
    · refine h.inUse_of_name k ?_
      have hk' : Function.update s.nodeName i (node.take 31) k ≠ [] := hk
      rwa [hself, if_neg hki] at hk'
  · have hkm' : Function.update s.nodeName i (node.take 31) k =
      Function.update s.nodeName i (node.take 31) m := hkm
    have hk' : Function.update s.nodeName i (node.take 31) k ≠ [] := hk
    rw [hself, hself] at hkm'
    rw [hself] at hk'
    split at hkm' <;> split at hkm' <;> rename_i hki hmi
    · rw [hki, hmi]
    · exact absurd hkm'.symm (hfresh m)
    · exact absurd hkm' (hfresh k)
    · rw [if_neg hki] at hk'
      exact h.name_inj k m hkm' hk'
  · show (node', k) ∈ s.locals ++ [(node, i)] ↔
      node' ≠ [] ∧ Function.update s.nodeName i (node.take 31) k = node'
    rw [List.mem_append, h.locals_iff, List.mem_singleton, Prod.mk.injEq, hself]
    split
    · rw [‹k = i›, hempty]
      constructor
      · rintro (⟨hne', he⟩ | ⟨rfl, -⟩)
        · exact absurd he.symm hne'
        · exact ⟨hne, rfl⟩
      · rintro ⟨-, rfl⟩
        exact .inr ⟨rfl, rfl⟩
    · simp [‹¬ k = i›]
  · rw [pc_setPc]
    split
    · trivial
    · have hnode := ‹¬ node' = node›
      refine (h.pcs node').frame (fun _ hk => hk) (hother node' hnode) fun k hp => ?_
      show Function.update s.nodeName i (node.take 31) k = s.nodeName k
      refine Function.update_of_ne ?_ ..
      rintro rfl
      exact hnode (h.claim_inj node' node k hp hpc)
  · rw [pc_setPc] at h₁ h₂
    split at h₁
    · cases h₁
    · split at h₂
      · cases h₂
      · exact h.claim_inj node₁ node₂ k h₁ h₂
  · obtain ⟨hne', hold⟩ := h.lookups name k hk
    refine ⟨hne', ?_⟩
    show Function.update s.nodeName i (node.take 31) k = name
    have hki : k ≠ i := by
      rintro rfl
      exact hne' (hold.symm.trans hempty)
    rw [hself, if_neg hki, hold]

/-- A reset that changes nothing that a lookup has returned. -/
theorem Inv.reset (h : s.Inv) {q : QueueIndices} (hq : s.LookedUp i → q = s.rxQueues i) :
    Inv { s with rxQueues := Function.update s.rxQueues i q } := by
  refine { h with indices := fun k hk => ?_ }
  show Function.update s.rxQueues i q k = s.expected k
  rw [Function.update_apply]
  split
  · obtain rfl := ‹k = i›
    rw [hq hk]
    exact h.indices k hk
  · exact h.indices k hk

theorem Inv.stepInit [DecidableEq L] (h : s.Inv) (hg : s.Orderly (.next node))
    (hs : s.stepInit node = some s') : s'.Inv := by
  have hpc := h.pcs node
  unfold ShmNodes.stepInit at hs
  split at hs <;> rename_i hp <;> rw [hp] at hpc
  · cases hs
  · cases hs
  · cases hs
  · rename_i i
    split at hs
    · obtain rfl := Option.some.inj hs
      refine h.setPc (fun k hk => ?_) (by rintro k ⟨⟩)
      have hlt := h.inUse_lt k (h.inUse_of_name k (hk ▸ hpc.1.1))
      exact (hpc.2 k (by omega)).2 hk
    · split at hs
      · obtain rfl := Option.some.inj hs
        exact h.setPc ⟨hpc.1, ‹_›, hpc.2⟩ (by rintro k ⟨⟩)
      · obtain rfl := Option.some.inj hs
        exact h.claim hp (by omega) (Bool.eq_false_iff.mpr ‹_›)
  · rename_i i
    split at hs
    · obtain rfl := Option.some.inj hs
      exact (h.reuse hpc.1.1 ‹_›).setPc trivial (by rintro k ⟨⟩)
    · obtain rfl := Option.some.inj hs
      refine h.setPc ⟨hpc.1, fun k hk => ?_⟩ (by rintro k ⟨⟩)
      rcases Nat.lt_succ_iff_lt_or_eq.mp hk with hk | rfl
      · exact hpc.2.2 k hk
      · exact ⟨hpc.2.1, ‹_›⟩
  · obtain rfl := Option.some.inj hs
    exact h.copyName hp
  · rename_i i
    obtain rfl := Option.some.inj hs
    refine Inv.setPc (h.reset fun hl => ?_) trivial (by rintro k ⟨⟩)
    rw [← (hg i hl).1 hp]
  · rename_i i
    obtain rfl := Option.some.inj hs
    refine Inv.setPc (h.reset fun hl => ?_) trivial (by rintro k ⟨⟩)
    rw [← (hg i hl).2 hp]

theorem lookedUp_nil (h : s.lookups = []) : ¬ s.LookedUp i := by
  rintro ⟨name, hi⟩
  exact List.not_mem_nil (h ▸ hi)

theorem lookedUp_returnQueue (k : ℕ) :
    (s.returnQueue name i).LookedUp k ↔ k = i ∨ s.LookedUp k := by
  constructor
  · rintro ⟨name', hmem⟩
    rcases List.mem_append.mp hmem with hmem | hmem
    · exact .inr ⟨name', hmem⟩
    · exact .inl (Prod.mk.inj (List.mem_singleton.mp hmem)).2
  · rintro (rfl | ⟨name', hmem⟩)
    · exact ⟨name, List.mem_append_right _ (List.mem_singleton.mpr rfl)⟩
    · exact ⟨name', List.mem_append_left _ hmem⟩

theorem Inv.returnQueue (h : s.Inv) (hne : name ≠ []) (hi : s.nodeName i = name) :
    (s.returnQueue name i).Inv := by
  refine { h with lookups := fun name' k hk => ?_, indices := fun k hk => ?_ }
  · rcases List.mem_append.mp hk with hk | hk
    · exact h.lookups name' k hk
    · obtain ⟨rfl, rfl⟩ := Prod.mk.inj (List.mem_singleton.mp hk)
      exact ⟨hne, hi⟩
  · show s.rxQueues k =
      (if s.LookedUp i then s.expected else Function.update s.expected i (s.rxQueues i)) k
    rcases (lookedUp_returnQueue k).mp hk with rfl | hold
    · split
      · exact h.indices k ‹_›
      · rw [Function.update_self]
    · split
      · exact h.indices k hold
      · have hki : k ≠ i := by
          rintro rfl
          exact ‹¬ s.LookedUp k› hold
        rw [Function.update_of_ne hki, h.indices k hold]

theorem Inv.setLookingUp [DecidableEq L] (h : s.Inv) {x : Option (Bytes × ℕ)}
    (hx : ∀ name i, x = some (name, i) → name ≠ []) :
    Inv { s with lookingUp := Function.update s.lookingUp l x } := by
  refine { h with lookingUp := fun l' name' k hk => ?_ }
  have hk' : Function.update s.lookingUp l x l' = some (name', k) := hk
  rw [Function.update_apply] at hk'
  split at hk'
  · exact hx name' k hk'
  · exact h.lookingUp l' name' k hk'

theorem Inv.stepLookup [DecidableEq L] (h : s.Inv) (hs : s.stepLookup l = some s') :
    s'.Inv := by
  obtain ⟨⟨name, i⟩, hl, rfl⟩ := Option.map_eq_some_iff.mp hs
  have hne := h.lookingUp l name i hl
  have hnone : ∀ (name' : Bytes) (k : ℕ), none = some (name', k) → name' ≠ [] := by
    rintro name' k ⟨⟩
  dsimp only
  split
  · exact h.setLookingUp hnone
  · split
    · exact (h.returnQueue hne (And.right ‹_›)).setLookingUp hnone
    · refine h.setLookingUp fun name' k hk => ?_
      obtain ⟨rfl, -⟩ := Prod.mk.inj (Option.some.inj hk)
      exact hne

theorem Inv.useQueue (h : s.Inv) (i : ℕ) (f : QueueIndices → QueueIndices) :
    (s.useQueue i f).Inv := by
  refine { h with indices := fun k hk => ?_ }
  show Function.update s.rxQueues i (f (s.rxQueues i)) k =
    Function.update s.expected i (f (s.expected i)) k
  rw [Function.update_apply, Function.update_apply]
  split
  · obtain rfl := ‹k = i›
    rw [h.indices k hk]
  · exact h.indices k hk

variable [DecidableEq L]

theorem Inv.step (a : ShmNodesAction L) (h : s.Inv) (hg : s.Orderly a)
    (hs : s.step a = some s') : s'.Inv := by
  cases a with
  | start node =>
    obtain ⟨-, hs⟩ := Option.ite_none_right_eq_some.mp hs
    obtain rfl := Option.some.inj hs
    exact h.setPc ⟨hg, fun k hk => absurd hk (Nat.not_lt_zero k)⟩ (by rintro k ⟨⟩)
  | next node => exact h.stepInit hg hs
  | crash node =>
    obtain rfl := Option.some.inj hs
    have hdown : Inv { s with localQueueIdx := Function.update s.localQueueIdx node none } :=
      { h with }
    exact Inv.setPc hdown trivial (by rintro k ⟨⟩)
  | lookup l name =>
    obtain ⟨-, hs⟩ := Option.ite_none_right_eq_some.mp hs
    obtain rfl := Option.some.inj hs
    refine h.setLookingUp fun name' k hk => ?_
    obtain ⟨rfl, -⟩ := Prod.mk.inj (Option.some.inj hk)
    exact hg
  | look l => exact h.stepLookup hs
  | enqueue i =>
    obtain ⟨-, hs⟩ := Option.ite_none_right_eq_some.mp hs
    obtain rfl := Option.some.inj hs
    exact h.useQueue i _
  | dequeue node =>
    obtain ⟨i, -, rfl⟩ := Option.map_eq_some_iff.mp hs
    exact h.useQueue i _

/-- Along every run whose steps are orderly, the nodes agree on their queues. -/
theorem always_agreed (as : List (ShmNodesAction L))
    (hg : Run.Guarded step Orderly init as) :
    Run.Always step (Agreed (L := L)) init as :=
  Run.always_of_guarded (I := Inv) (fun _ a _ h hg hs => h.step a hg hs) (fun _ h => h.agreed)
    Inv.init hg

/-- A node whose queue is looked up before the resets, and that is started again after a crash. -/
theorem agreed_restart_a : Run.Always step (Agreed (L := Unit)) init
    [.start [97], .next [97], .next [97], .lookup () [97], .look (), .next [97], .next [97],
      .enqueue 0, .dequeue [97], .crash [97], .start [97], .next [97], .next [97]] := by
  apply always_agreed
  refine .cons rfl ⟨List.cons_ne_nil _ _, by decide⟩
    (.cons rfl (fun i hi => absurd hi (lookedUp_nil rfl))
    (.cons rfl (fun i hi => absurd hi (lookedUp_nil rfl))
    (.cons rfl (List.cons_ne_nil _ _) (.cons rfl trivial (.cons rfl ?_ (.cons rfl ?_
    (.cons rfl trivial (.cons rfl trivial (.cons rfl trivial
    (.cons rfl ⟨List.cons_ne_nil _ _, by decide⟩ (.cons rfl ?_ (.cons rfl ?_ trivial))))))))))))
  · intro i _
    constructor
    · rintro ⟨⟩
      rfl
    · rintro ⟨⟩
  · intro i _
    constructor
    · rintro ⟨⟩
    · rintro ⟨⟩
      rfl
  · intro i _
    constructor <;> rintro ⟨⟩
  · intro i _
    constructor <;> rintro ⟨⟩

/-- A node that resets its indices after its name is visible undoes an enqueue. -/
theorem not_agreed_after_reset : ¬ Run.Always step (Agreed (L := Unit)) init
    [.start [97], .next [97], .next [97], .lookup () [97], .look (), .enqueue 0, .next [97],
      .next [97]] := by
  intro h
  have hindices := (h.last rfl).indices 0 ⟨[97], List.mem_cons_self⟩
  exact absurd hindices (by decide)

end GeminiNOS.ShmNodes

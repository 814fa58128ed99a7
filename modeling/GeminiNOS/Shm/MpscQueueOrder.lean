import GeminiNOS.Shm.MpscQueue

/-! # The order of the receive queue

A claim tests for room with a head that it reads before its compare-exchange on
the tail. The two positions are counted modulo the size of the queue, so that the
compare-exchange may find the same tail one round later. The queue is in order as
long as no claim succeeds that way on a full queue.
-/

namespace GeminiNOS

open Foundations Run Ring

/-- The offset that a call carries towards its claim is not zero. -/
def EnqueuePc.Sound : EnqueuePc → Prop
  | .loadTail offset | .loadHead offset _ | .cas offset _ => offset ≠ 0
  | _ => True

/-- The producer has not claimed a slot that it still has to write. -/
def EnqueuePc.Unclaimed : EnqueuePc → Prop
  | .store _ _ _ => False
  | _ => True

namespace NosShmMpscQueue

variable {P : Type*}

/-- The consumer knows the head, and takes out the offset of the first claim not returned. -/
def ConsumerSound (s : NosShmMpscQueue P) : Prop :=
  match s.consumer with
  | .idle | .loadHead => True
  | .loadTail head => head = s.head
  | .spin head => head = s.head ∧ s.returned.length < s.claims.length
  | .clear head offset => head = s.head ∧ s.returned.length ∈ s.accepted ∧
      s.claims[s.returned.length]? = some offset ∧ s.offsets head = offset
  | .advance head offset => head = s.head ∧ s.returned.length ∈ s.accepted ∧
      s.claims[s.returned.length]? = some offset ∧ s.offsets head = 0

/-- The claims counted by position: those returned, those in the ring and their slots. -/
structure Inv (s : NosShmMpscQueue P) : Prop where
  returned_prefix : s.returned <+: s.claims
  room : s.claims.length < s.returned.length + nosShmQueueSize
  head_eq : s.head = s.returned.length % nosShmQueueSize
  tail_eq : s.tail = s.claims.length % nosShmQueueSize
  claims_ne_zero : ∀ offset ∈ s.claims, offset ≠ 0
  producers : ∀ p, (s.producer p).Sound
  consumer : s.ConsumerSound
  accepted_nodup : s.accepted.Nodup
  accepted_lt : ∀ k ∈ s.accepted, k < s.claims.length
  claimed : ∀ p offset tail k, s.producer p = .store offset tail k →
    s.claims[k]? = some offset ∧ tail = k % nosShmQueueSize ∧ s.returned.length ≤ k ∧
      k ∉ s.accepted ∧ s.offsets tail = 0
  claimed_unique : ∀ p q offset offset' tail tail' k, s.producer p = .store offset tail k →
    s.producer q = .store offset' tail' k → q = p
  window : ∀ k, s.returned.length ≤ k → k < s.claims.length →
    (∃ p offset tail, s.producer p = .store offset tail k) ∨
      k ∈ s.accepted ∧ (s.claims[k]? = some (s.offsets (k % nosShmQueueSize)) ∨
        k = s.returned.length ∧ ∃ head offset, s.consumer = .advance head offset)
  free : ∀ k, s.claims.length ≤ k → k < s.returned.length + nosShmQueueSize →
    s.offsets (k % nosShmQueueSize) = 0

variable {s s' t : NosShmMpscQueue P} {p q : P} {pc : EnqueuePc} {offset tail ticket head k : ℕ}

/-- What the consumer knows outlives changes to the rest of the queue. -/
theorem ConsumerSound.mono (h : s.ConsumerSound) (hc : t.consumer = s.consumer)
    (hhead : t.head = s.head) (hret : t.returned = s.returned)
    (hacc : ∀ k ∈ s.accepted, k ∈ t.accepted)
    (hslot : s.returned.length ∈ s.accepted → t.offsets s.head = s.offsets s.head)
    (hlen : s.claims.length ≤ t.claims.length)
    (hclaims : ∀ k < s.claims.length, t.claims[k]? = s.claims[k]?) : t.ConsumerSound := by
  unfold ConsumerSound at h ⊢
  rw [hc, hhead, hret]
  split <;> rename_i hpc <;> rw [hpc] at h
  · trivial
  · trivial
  · exact h
  · exact ⟨h.1, h.2.trans_le hlen⟩
  · obtain ⟨rfl, hk, hclaim, hoff⟩ := h
    have hlt := (List.getElem?_eq_some_iff.mp hclaim).1
    exact ⟨rfl, hacc _ hk, (hclaims _ hlt).trans hclaim, (hslot hk).trans hoff⟩
  · obtain ⟨rfl, hk, hclaim, hoff⟩ := h
    have hlt := (List.getElem?_eq_some_iff.mp hclaim).1
    exact ⟨rfl, hacc _ hk, (hclaims _ hlt).trans hclaim, (hslot hk).trans hoff⟩

theorem Inv.length_le (h : s.Inv) : s.returned.length ≤ s.claims.length :=
  h.returned_prefix.length_le

theorem Inv.lt_of_claimed (h : s.Inv) (hp : s.producer p = .store offset tail k) :
    k < s.claims.length := by
  obtain ⟨hk, -⟩ := h.claimed p offset tail k hp
  exact (List.getElem?_eq_some_iff.mp hk).1

theorem slot_ne {i j : ℕ} (hi : s.returned.length ≤ i)
    (hin : i < s.returned.length + nosShmQueueSize) (hj : s.returned.length ≤ j)
    (hjn : j < s.returned.length + nosShmQueueSize) (hne : i ≠ j) :
    i % nosShmQueueSize ≠ j % nosShmQueueSize := fun he => hne (slot_inj hi hin hj hjn he)

theorem Inv.inOrder (h : s.Inv) : s.InOrder where
  returned_prefix := h.returned_prefix
  between_eq := by
    rw [h.head_eq, h.tail_eq]
    exact between_mod h.length_le h.room
  accepted_nodup := h.accepted_nodup
  accepted_lt := h.accepted_lt
  stored k hk hle := by
    have hslot : (s.head + (k - s.returned.length)) % nosShmQueueSize = k % nosShmQueueSize := by
      rw [h.head_eq, Nat.mod_add_mod, Nat.add_sub_cancel' hle]
    rw [hslot]
    rcases h.window k hle (h.accepted_lt k hk) with ⟨p, offset, tail, hp⟩ | ⟨-, hslot | ⟨rfl, hc⟩⟩
    · exact absurd hk (h.claimed p offset tail k hp).2.2.2.1
    · exact Or.inl hslot
    · obtain ⟨head, offset, hc⟩ := hc
      have hsound := h.consumer
      simp only [ConsumerSound, hc] at hsound
      exact Or.inr ⟨rfl, offset, by rw [hc, hsound.1], hsound.2.2.1⟩
  free_slot p offset tail k hp := (h.claimed p offset tail k hp).2.2.2.2

section Producer

variable [DecidableEq P]

theorem producer_setProducer :
    (s.setProducer p pc).producer q = if q = p then pc else s.producer q :=
  Function.update_apply ..

theorem store_setProducer : (s.setProducer p pc).producer q = .store offset tail k ↔
    q = p ∧ pc = .store offset tail k ∨ q ≠ p ∧ s.producer q = .store offset tail k := by
  rw [producer_setProducer]
  split <;> simp [*]

theorem Inv.producers_setProducer (h : s.Inv) (hpc : pc.Sound) (q : P) :
    ((s.setProducer p pc).producer q).Sound := by
  rw [producer_setProducer]
  split
  · exact hpc
  · exact h.producers q

theorem Inv.setProducer (h : s.Inv) (hold : (s.producer p).Unclaimed) (hnew : pc.Unclaimed)
    (hpc : pc.Sound) : (s.setProducer p pc).Inv := by
  have hstore : ∀ q offset tail k, (s.setProducer p pc).producer q = .store offset tail k ↔
      s.producer q = .store offset tail k := by
    intro q offset tail k
    rw [store_setProducer]
    constructor
    · rintro (⟨-, rfl⟩ | ⟨-, hq⟩)
      · exact hnew.elim
      · exact hq
    · intro hq
      refine Or.inr ⟨?_, hq⟩
      rintro rfl
      rw [hq] at hold
      exact hold
  exact
    { h with
      producers := h.producers_setProducer hpc
      claimed := fun q offset tail k hq => h.claimed q offset tail k ((hstore ..).mp hq)
      claimed_unique := fun q r offset offset' tail tail' k hq hr =>
        h.claimed_unique q r offset offset' tail tail' k ((hstore ..).mp hq) ((hstore ..).mp hr)
      window := fun k hle hlt => by
        rcases h.window k hle hlt with ⟨q, offset, tail, hq⟩ | hk
        · exact Or.inl ⟨q, offset, tail, (hstore ..).mpr hq⟩
        · exact Or.inr hk }

theorem Inv.claim (h : s.Inv) (hpc : s.producer p = .cas offset tail) (htail : s.tail = tail)
    (hroom : (tail + 1) % nosShmQueueSize ≠ s.head) :
    ({ s with
      tail := (tail + 1) % nosShmQueueSize
      claims := s.claims ++ [offset] }.setProducer p
        (.store offset tail s.claims.length) : NosShmMpscQueue P).Inv := by
  have hlen := h.length_le
  have hoffset : offset ≠ 0 := by simpa [hpc, EnqueuePc.Sound] using h.producers p
  have htail' : tail = s.claims.length % nosShmQueueSize := htail.symm.trans h.tail_eq
  have hnext : (tail + 1) % nosShmQueueSize = (s.claims.length + 1) % nosShmQueueSize := by
    rw [htail', Nat.mod_add_mod]
  have hspace : s.claims.length + 1 < s.returned.length + nosShmQueueSize := by
    have hne : s.claims.length + 1 ≠ s.returned.length + nosShmQueueSize := fun he =>
      hroom (hnext.trans (((full_iff hlen h.room).mpr he).trans h.head_eq.symm))
    have := h.room
    omega
  have hget : ∀ k < s.claims.length, (s.claims ++ [offset])[k]? = s.claims[k]? := fun k hk =>
    List.getElem?_append_left hk
  refine
    { returned_prefix := h.returned_prefix.trans (List.prefix_append _ _)
      room := by simpa using hspace
      head_eq := h.head_eq
      tail_eq := by simpa using hnext
      claims_ne_zero := ?_
      producers := h.producers_setProducer trivial
      consumer := ?_
      accepted_nodup := h.accepted_nodup
      accepted_lt := ?_
      claimed := ?_
      claimed_unique := ?_
      window := ?_
      free := ?_ }
  · intro x hx
    rcases List.mem_append.mp hx with hx | hx
    · exact h.claims_ne_zero x hx
    · rw [List.mem_singleton.mp hx]
      exact hoffset
  · exact h.consumer.mono rfl rfl rfl (fun _ hk => hk) (fun _ => rfl) (by simp) hget
  · intro k hk
    have := h.accepted_lt k hk
    simp only [claims_setProducer, List.length_append]
    omega
  · intro q x t k hq
    rcases store_setProducer.mp hq with ⟨-, he⟩ | ⟨-, hq⟩
    · cases he
      refine ⟨List.getElem?_concat_length .., htail', hlen, ?_, ?_⟩
      · exact fun hk => lt_irrefl _ (h.accepted_lt _ hk)
      · show s.offsets tail = 0
        rw [htail']
        exact h.free _ le_rfl h.room
    · obtain ⟨hk, hrest⟩ := h.claimed q x t k hq
      exact ⟨(hget k (h.lt_of_claimed hq)).trans hk, hrest⟩
  · intro q r x x' t t' k hq hr
    rcases store_setProducer.mp hq with ⟨rfl, he⟩ | ⟨-, hq'⟩ <;>
      rcases store_setProducer.mp hr with ⟨rfl, he'⟩ | ⟨-, hr'⟩
    · rfl
    · cases he
      exact absurd (h.lt_of_claimed hr') (lt_irrefl _)
    · cases he'
      exact absurd (h.lt_of_claimed hq') (lt_irrefl _)
    · exact h.claimed_unique q r x x' t t' k hq' hr'
  · intro k hle hlt
    by_cases hk : k = s.claims.length
    · exact Or.inl ⟨p, offset, tail, store_setProducer.mpr (Or.inl ⟨rfl, by rw [hk]⟩)⟩
    · simp only [claims_setProducer, List.length_append, List.length_singleton] at hlt
      have hk' : k < s.claims.length := by omega
      rcases h.window k hle hk' with ⟨q, x, t, hq⟩ | ⟨hacc, hslot⟩
      · refine Or.inl ⟨q, x, t, store_setProducer.mpr (Or.inr ⟨?_, hq⟩)⟩
        rintro rfl
        rw [hpc] at hq
        cases hq
      · rw [← hget k hk'] at hslot
        exact Or.inr ⟨hacc, hslot⟩
  · intro k hk hkn
    simp only [claims_setProducer, List.length_append, List.length_singleton] at hk
    exact h.free k (by omega) hkn

theorem Inv.store (h : s.Inv) (hpc : s.producer p = .store offset tail ticket) :
    ({ s with
      offsets := Function.update s.offsets tail offset
      accepted := ticket :: s.accepted }.setProducer p .idle : NosShmMpscQueue P).Inv := by
  obtain ⟨hclaim, htail, hle, hnew, hzero⟩ := h.claimed p offset tail ticket hpc
  have hlt := h.lt_of_claimed hpc
  have hroom := h.room
  have hother : ∀ k, s.returned.length ≤ k → k < s.returned.length + nosShmQueueSize →
      k ≠ ticket → Function.update s.offsets tail offset (k % nosShmQueueSize) =
        s.offsets (k % nosShmQueueSize) := by
    intro k hk hkn hne
    rw [htail]
    exact Function.update_of_ne (slot_ne hk hkn hle (by omega) hne) _ _
  have hidle : ∀ q x t k, ({ s with
      offsets := Function.update s.offsets tail offset
      accepted := ticket :: s.accepted }.setProducer p .idle : NosShmMpscQueue P).producer q =
        .store x t k → q ≠ p ∧ s.producer q = .store x t k := by
    intro q x t k hq
    rcases store_setProducer.mp hq with ⟨-, ⟨⟩⟩ | hq
    exact hq
  refine
    { returned_prefix := h.returned_prefix
      room := hroom
      head_eq := h.head_eq
      tail_eq := h.tail_eq
      claims_ne_zero := h.claims_ne_zero
      producers := h.producers_setProducer trivial
      consumer := ?_
      accepted_nodup := List.nodup_cons.mpr ⟨hnew, h.accepted_nodup⟩
      accepted_lt := List.forall_mem_cons.mpr ⟨hlt, h.accepted_lt⟩
      claimed := ?_
      claimed_unique := ?_
      window := ?_
      free := ?_ }
  · refine h.consumer.mono rfl rfl rfl (fun _ hk => List.mem_cons_of_mem _ hk) (fun ho => ?_)
      le_rfl fun _ _ => rfl
    have hne : s.returned.length ≠ ticket := fun he => hnew (he ▸ ho)
    rw [h.head_eq]
    exact hother _ le_rfl (by omega) hne
  · intro q x t k hq
    obtain ⟨hqp, hq'⟩ := hidle q x t k hq
    obtain ⟨hx, rfl, hk, hacc, hx0⟩ := h.claimed q x t k hq'
    have hkt : k ≠ ticket := fun he =>
      hqp (h.claimed_unique p q _ _ _ _ _ hpc (he ▸ hq'))
    refine ⟨hx, rfl, hk, ?_, ?_⟩
    · exact fun hmem => (List.mem_cons.mp hmem).elim hkt hacc
    · have := h.lt_of_claimed hq'
      exact (hother k hk (by omega) hkt).trans hx0
  · intro q r x x' t t' k hq hr
    exact h.claimed_unique q r x x' t t' k (hidle _ _ _ _ hq).2 (hidle _ _ _ _ hr).2
  · intro k hk hkc
    by_cases hkt : k = ticket
    · subst hkt
      refine Or.inr ⟨List.mem_cons_self, Or.inl ?_⟩
      show s.claims[k]? = some (Function.update s.offsets tail offset (k % nosShmQueueSize))
      rw [← htail, Function.update_self, hclaim]
    · have hkc' : k < s.claims.length := hkc
      rcases h.window k hk hkc' with ⟨q, x, t, hq⟩ | ⟨hacc, hslot | hslot⟩
      · refine Or.inl ⟨q, x, t, store_setProducer.mpr (Or.inr ⟨?_, hq⟩)⟩
        rintro rfl
        rw [hpc] at hq
        cases hq
        exact hkt rfl
      · refine Or.inr ⟨List.mem_cons_of_mem _ hacc, Or.inl (hslot.trans ?_)⟩
        exact congrArg some (hother k hk (by omega) hkt).symm
      · exact Or.inr ⟨List.mem_cons_of_mem _ hacc, Or.inr hslot⟩
  · intro k hk hkn
    have hk' : s.claims.length ≤ k := hk
    have := h.length_le
    exact (hother k (by omega) hkn (by omega)).trans (h.free k hk hkn)

end Producer

/-- The consumer has not cleared the slot that its head is at. -/
def Uncleared (s : NosShmMpscQueue P) : Prop := ∀ head offset, s.consumer ≠ .advance head offset

theorem Inv.setConsumer (h : s.Inv) (hold : s.Uncleared) {pc : DequeuePc}
    (hpc : ({ s with consumer := pc } : NosShmMpscQueue P).ConsumerSound) :
    ({ s with consumer := pc } : NosShmMpscQueue P).Inv :=
  { h with
    consumer := hpc
    window := fun k hk hkc => by
      rcases h.window k hk hkc with hp | ⟨hacc, hslot | ⟨-, head, offset, hc⟩⟩
      · exact Or.inl hp
      · exact Or.inr ⟨hacc, Or.inl hslot⟩
      · exact absurd hc (hold head offset) }

/-- The slot at the head, once it is written, holds the first claim not returned. -/
theorem Inv.head_slot (h : s.Inv) (hold : s.Uncleared)
    (hlt : s.returned.length < s.claims.length) (hne : s.offsets s.head ≠ 0) :
    s.returned.length ∈ s.accepted ∧
      s.claims[s.returned.length]? = some (s.offsets s.head) := by
  rcases h.window _ le_rfl hlt with ⟨p, offset, tail, hp⟩ | ⟨hacc, hslot | ⟨-, head, offset, hc⟩⟩
  · obtain ⟨-, rfl, -, -, hzero⟩ := h.claimed p offset tail _ hp
    rw [h.head_eq] at hne
    exact absurd hzero hne
  · exact ⟨hacc, by rw [h.head_eq, hslot]⟩
  · exact absurd hc (hold head offset)

theorem Inv.clear (h : s.Inv) (hpc : s.consumer = .clear head offset) :
    ({ s with
      offsets := Function.update s.offsets head 0
      consumer := .advance head offset } : NosShmMpscQueue P).Inv := by
  have hsound := h.consumer
  simp only [ConsumerSound, hpc] at hsound
  obtain ⟨rfl, hacc, hclaim, hoff⟩ := hsound
  have hroom := h.room
  have hzero : ∀ i, s.offsets i = 0 → Function.update s.offsets s.head 0 i = 0 := by
    intro i hi
    rw [Function.update_apply]
    split
    · rfl
    · exact hi
  exact
    { h with
      consumer := ⟨rfl, hacc, hclaim, Function.update_self ..⟩
      claimed := fun p x t k hp => by
        obtain ⟨hx, ht, hk, hkacc, hx0⟩ := h.claimed p x t k hp
        exact ⟨hx, ht, hk, hkacc, hzero t hx0⟩
      window := fun k hk hkc => by
        by_cases hko : k = s.returned.length
        · subst hko
          exact Or.inr ⟨hacc, Or.inr ⟨rfl, _, _, rfl⟩⟩
        · have hkc' : k < s.claims.length := hkc
          have hk' : s.returned.length ≤ k := hk
          rcases h.window k hk hkc' with hp | ⟨hkacc, hslot | ⟨hko', -⟩⟩
          · exact Or.inl hp
          · refine Or.inr ⟨hkacc, Or.inl (hslot.trans (congrArg some ?_))⟩
            have hne := slot_ne hk' (by omega) (le_refl s.returned.length) (by omega) hko
            rw [h.head_eq]
            exact (Function.update_of_ne hne _ _).symm
          · exact absurd hko' hko
      free := fun k hk hkn => hzero _ (h.free k hk hkn) }

theorem Inv.advance (h : s.Inv) (hpc : s.consumer = .advance head offset) :
    ({ s with
      head := (head + 1) % nosShmQueueSize
      returned := s.returned ++ [offset]
      consumer := .idle } : NosShmMpscQueue P).Inv := by
  have hsound := h.consumer
  simp only [ConsumerSound, hpc] at hsound
  obtain ⟨rfl, hacc, hclaim, hoff⟩ := hsound
  have hroom := h.room
  have hlt := h.accepted_lt _ hacc
  refine
    { returned_prefix := ?_
      room := ?_
      head_eq := ?_
      tail_eq := h.tail_eq
      claims_ne_zero := h.claims_ne_zero
      producers := h.producers
      consumer := trivial
      accepted_nodup := h.accepted_nodup
      accepted_lt := h.accepted_lt
      claimed := ?_
      claimed_unique := h.claimed_unique
      window := ?_
      free := ?_ }
  · obtain ⟨rest, hrest⟩ := h.returned_prefix
    rw [← hrest, List.getElem?_append_right le_rfl, Nat.sub_self] at hclaim
    obtain ⟨x, rest, rfl⟩ := List.exists_cons_of_ne_nil (l := rest) (by rintro rfl; cases hclaim)
    cases hclaim
    exact ⟨rest, by rw [← hrest, List.append_assoc]; rfl⟩
  · simp only [List.length_append, List.length_singleton]
    omega
  · simp only [List.length_append, List.length_singleton]
    rw [h.head_eq, Nat.mod_add_mod]
  · intro p x t k hp
    obtain ⟨hx, ht, hk, hkacc, hx0⟩ := h.claimed p x t k hp
    have hne : k ≠ s.returned.length := fun he => hkacc (he ▸ hacc)
    refine ⟨hx, ht, ?_, hkacc, hx0⟩
    simp only [List.length_append, List.length_singleton]
    omega
  · intro k hk hkc
    simp only [List.length_append, List.length_singleton] at hk
    rcases h.window k (by omega) hkc with hp | ⟨hkacc, hslot | ⟨hko, -⟩⟩
    · exact Or.inl hp
    · exact Or.inr ⟨hkacc, Or.inl hslot⟩
    · omega
  · intro k hk hkn
    simp only [List.length_append, List.length_singleton] at hkn
    by_cases hlast : k = s.returned.length + nosShmQueueSize
    · show s.offsets (k % nosShmQueueSize) = 0
      rw [hlast, Nat.add_mod_right, ← h.head_eq, hoff]
    · exact h.free k hk (by omega)

variable [DecidableEq P]

theorem Inv.produce (h : s.Inv) {spurious : Bool} (hroom : s.Room (.produce p spurious))
    (hs : s.produce p spurious = some s') : s'.Inv := by
  have hp := h.producers p
  unfold NosShmMpscQueue.produce at hs
  split at hs <;> rename_i hpc
  · cases hs
  · obtain rfl := Option.some.inj hs
    rw [hpc] at hp
    exact h.setProducer (by rw [hpc]; trivial) trivial hp
  · rw [hpc] at hp
    split at hs <;> obtain rfl := Option.some.inj hs
    · exact h.setProducer (by rw [hpc]; trivial) trivial trivial
    · exact h.setProducer (by rw [hpc]; trivial) trivial hp
  · rw [hpc] at hp
    split at hs <;> rename_i hcas <;> obtain rfl := Option.some.inj hs
    · exact h.claim hpc hcas.1 (hroom _ _ hpc hcas.1 hcas.2)
    · exact h.setProducer (by rw [hpc]; trivial) trivial hp
  · obtain rfl := Option.some.inj hs
    exact h.store hpc

omit [DecidableEq P] in
theorem Inv.consume (h : s.Inv) (hs : s.consume = some s') : s'.Inv := by
  have hc := h.consumer
  unfold NosShmMpscQueue.consume at hs
  split at hs <;> rename_i hpc
  · cases hs
  · obtain rfl := Option.some.inj hs
    exact h.setConsumer (by simp [Uncleared, hpc]) rfl
  · have hold : s.Uncleared := by simp [Uncleared, hpc]
    simp only [ConsumerSound, hpc] at hc
    split at hs <;> rename_i hempty <;> obtain rfl := Option.some.inj hs
    · exact h.setConsumer hold trivial
    · refine h.setConsumer hold ⟨hc, ?_⟩
      rw [hc, h.head_eq, h.tail_eq, empty_iff h.length_le h.room] at hempty
      exact lt_of_le_of_ne h.length_le hempty
  · have hold : s.Uncleared := by simp [Uncleared, hpc]
    simp only [ConsumerSound, hpc] at hc
    obtain ⟨rfl, hlt⟩ := hc
    split at hs <;> rename_i hzero <;> obtain rfl := Option.some.inj hs
    · exact h
    · obtain ⟨hacc, hclaim⟩ := h.head_slot hold hlt hzero
      exact h.setConsumer hold ⟨rfl, hacc, hclaim, rfl⟩
  · obtain rfl := Option.some.inj hs
    exact h.clear hpc
  · obtain rfl := Option.some.inj hs
    exact h.advance hpc

theorem Inv.step (h : s.Inv) {action : MpscAction P} (hroom : s.Room action)
    (hs : s.step action = some s') : s'.Inv := by
  cases action with
  | enqueue p offset =>
    simp only [NosShmMpscQueue.step] at hs
    split at hs
    · cases hs
    · rename_i hidle
      rw [not_not] at hidle
      split at hs <;> obtain rfl := Option.some.inj hs
      · exact h
      · exact h.setProducer (by rw [hidle]; trivial) trivial ‹_›
  | dequeue =>
    simp only [NosShmMpscQueue.step] at hs
    split at hs
    · cases hs
    · rename_i hidle
      rw [not_not] at hidle
      obtain rfl := Option.some.inj hs
      exact h.setConsumer (by simp [Uncleared, hidle]) trivial
  | produce p spurious => exact h.produce hroom hs
  | consume => exact h.consume hs

theorem history_step {action : MpscAction P} (hs : s.step action = some s') :
    s.claims <+: s'.claims ∧ s.returned <+: s'.returned := by
  cases action with
  | enqueue p offset =>
    simp only [NosShmMpscQueue.step] at hs
    split at hs
    · cases hs
    · split at hs <;> obtain rfl := Option.some.inj hs <;> simp
  | dequeue =>
    simp only [NosShmMpscQueue.step] at hs
    split at hs
    · cases hs
    · obtain rfl := Option.some.inj hs
      simp
  | produce p spurious =>
    simp only [NosShmMpscQueue.step, NosShmMpscQueue.produce] at hs
    split at hs
    · cases hs
    · obtain rfl := Option.some.inj hs
      simp
    · split at hs <;> obtain rfl := Option.some.inj hs <;> simp
    · split at hs <;> obtain rfl := Option.some.inj hs <;> simp
    · obtain rfl := Option.some.inj hs
      simp
  | consume =>
    simp only [NosShmMpscQueue.step, NosShmMpscQueue.consume] at hs
    split at hs
    · cases hs
    · obtain rfl := Option.some.inj hs
      simp
    · split at hs <;> obtain rfl := Option.some.inj hs <;> simp
    · split at hs <;> obtain rfl := Option.some.inj hs <;> simp
    · obtain rfl := Option.some.inj hs
      simp
    · obtain rfl := Option.some.inj hs
      simp

omit [DecidableEq P] in
theorem inv_empty : (empty : NosShmMpscQueue P).Inv where
  returned_prefix := List.prefix_rfl
  room := by
    show 0 < 0 + nosShmQueueSize
    decide
  head_eq := rfl
  tail_eq := rfl
  claims_ne_zero := by simp [empty]
  producers _ := trivial
  consumer := trivial
  accepted_nodup := List.nodup_nil
  accepted_lt := by simp [empty]
  claimed := by simp [empty]
  claimed_unique := by simp [empty]
  window := by simp [empty]
  free _ _ _ := rfl

/-- A claim on a full queue makes it look empty. -/
theorem Inv.room_of_inOrder (h : s.Inv) {action : MpscAction P} (hs : s.step action = some s')
    (hin : s'.InOrder) : s.Room action := by
  cases action with
  | enqueue p offset => trivial
  | dequeue => trivial
  | consume => trivial
  | produce p spurious =>
    intro offset tail hpc htail hspurious hfull
    have hs' : s.produce p spurious = some s' := hs
    rw [NosShmMpscQueue.produce, hpc] at hs'
    simp only [htail, hspurious, and_self, if_true, Option.some.injEq] at hs'
    subst hs'
    have hbetween := hin.between_eq
    simp only [head_setProducer, tail_setProducer, claims_setProducer, returned_setProducer,
      List.length_append, List.length_singleton] at hbetween
    rw [hfull, between_self] at hbetween
    have := h.length_le
    omega

/-- Along a run, the queue is in order in every state exactly if every successful claim finds room
behind the tail. -/
theorem always_inOrder_iff (actions : List (MpscAction P)) :
    Always step InOrder empty actions ↔ Guarded step Room empty actions :=
  always_iff_guarded (I := Inv) (fun _ h => h.inOrder)
    (fun _ _ _ h hs hin => h.step (h.room_of_inOrder hs hin) hs)
    (fun _ _ _ h hs => ⟨h.room_of_inOrder hs, fun hroom => (h.step hroom hs).inOrder⟩) inv_empty

def enqueueCall (p : P) (offset : ℕ) : List (MpscAction P) :=
  .enqueue p offset :: List.replicate 4 (.produce p false)

def dequeueCall : List (MpscAction P) := .dequeue :: List.replicate 5 .consume

def enqueued (s : NosShmMpscQueue P) (p : P) (offset : ℕ) : NosShmMpscQueue P :=
  { s with
    tail := (s.tail + 1) % nosShmQueueSize
    offsets := Function.update s.offsets s.tail offset
    claims := s.claims ++ [offset]
    accepted := s.claims.length :: s.accepted }.setProducer p .idle

theorem exec_enqueueCall (hidle : s.producer p = .idle) (hoffset : offset ≠ 0)
    (hroom : (s.tail + 1) % nosShmQueueSize ≠ s.head) :
    exec step s (enqueueCall p offset) = some (s.enqueued p offset) := by
  simp [enqueueCall, List.replicate, step, NosShmMpscQueue.produce, hidle, hoffset, hroom,
    setProducer, enqueued]

theorem exec_enqueueCalls {o c n : ℕ} (hidle : s.producer p = .idle) (hoffset : offset ≠ 0)
    (hhead : s.head = o % nosShmQueueSize) (htail : s.tail = c % nosShmQueueSize) (hle : o ≤ c)
    (hn : c + n < o + nosShmQueueSize) :
    ∃ t, exec step s (List.replicate n (enqueueCall p offset)).flatten = some t ∧
      t.head = s.head ∧ t.tail = (c + n) % nosShmQueueSize ∧
      t.claims.length = s.claims.length + n ∧ t.returned = s.returned ∧
      ∀ q, q ≠ p → t.producer q = s.producer q := by
  induction n generalizing s c with
  | zero => exact ⟨s, rfl, rfl, htail, rfl, rfl, fun _ _ => rfl⟩
  | succ n ih =>
    have hnext : (s.tail + 1) % nosShmQueueSize = (c + 1) % nosShmQueueSize := by
      rw [htail, Nat.mod_add_mod]
    have hroom : (s.tail + 1) % nosShmQueueSize ≠ s.head := by
      rw [hnext, hhead]
      exact fun he => absurd ((full_iff hle (by omega)).mp he) (by omega)
    have hfirst := exec_enqueueCall hidle hoffset hroom
    obtain ⟨t, ht, hhead', htail', hclaims', hret', hother'⟩ :=
      ih (s := s.enqueued p offset) (producer_setProducer.trans (if_pos rfl)) hhead hnext
        (by omega) (by omega)
    refine ⟨t, exec_trans hfirst ht, hhead', ?_, ?_, hret', fun q hq => ?_⟩
    · rw [htail', Nat.add_right_comm, Nat.add_assoc]
    · rw [hclaims', enqueued, claims_setProducer, List.length_append, List.length_singleton]
      omega
    · rw [hother' q hq, enqueued, producer_setProducer, if_neg hq]

/-- Producer 0 reads tail and head of the empty queue. Before its compare-exchange, one offset goes
through the queue and 4095 more fill it, which brings the tail round to the value that was read. -/
theorem not_inOrder_after_round :
    ¬ Always step InOrder (empty : NosShmMpscQueue ℕ)
      ([.enqueue 0 7, .produce 0 false, .produce 0 false] ++ enqueueCall 1 5 ++ dequeueCall ++
        (List.replicate 4095 (enqueueCall 1 5)).flatten ++ [.produce 0 false]) := by
  intro h
  obtain ⟨s, hs⟩ : ∃ s, exec step (empty : NosShmMpscQueue ℕ)
      ([.enqueue 0 7, .produce 0 false, .produce 0 false] ++ enqueueCall 1 5 ++ dequeueCall) =
        some s := ⟨_, rfl⟩
  have hfacts : s.head = 1 % nosShmQueueSize ∧ s.tail = 1 % nosShmQueueSize ∧
      s.claims.length = 1 ∧ s.returned.length = 1 ∧ s.producer 0 = .cas 7 0 ∧
      s.producer 1 = .idle := by
    obtain rfl := Option.some.inj hs
    exact ⟨rfl, rfl, rfl, rfl, rfl, rfl⟩
  obtain ⟨hhead, htail, hclaims, hret, hstale, hidle⟩ := hfacts
  obtain ⟨t, ht, hhead', htail', hclaims', hret', hother⟩ :=
    exec_enqueueCalls (o := 1) (c := 1) (n := 4095) hidle (show 5 ≠ 0 by decide) hhead htail le_rfl
      (by decide)
  have hstale' : t.producer 0 = .cas 7 0 := (hother 0 (by decide)).trans hstale
  have htail₀ : t.tail = 0 := htail'
  have hstep : exec step t [.produce 0 false] = some ({ t with
      tail := (0 + 1) % nosShmQueueSize
      claims := t.claims ++ [7] }.setProducer 0 (.store 7 0 t.claims.length)) := by
    simp [step, NosShmMpscQueue.produce, hstale', htail₀]
  have hin := (h.last (exec_trans (exec_trans hs ht) hstep)).between_eq
  have hfull : (0 + 1) % nosShmQueueSize = t.head := by
    rw [hhead', hhead]
  simp only [head_setProducer, tail_setProducer, claims_setProducer, returned_setProducer,
    List.length_append, List.length_singleton] at hin
  rw [hfull, between_self, hclaims', hclaims, hret', hret] at hin
  omega

end NosShmMpscQueue

end GeminiNOS

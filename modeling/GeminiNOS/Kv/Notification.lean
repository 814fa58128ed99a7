import GeminiNOS.Foundations.Places
import GeminiNOS.Kv.Representation
import Mathlib.Data.List.Sort

/-! # Notifications of concurrent puts

A put on a live key stores under the lock of the bucket, and calls the subscribers
one by one after it has given the lock back. Each store has a ticket, its place in
the order of the stores.
-/

namespace GeminiNOS

open Foundations

def KvNotification.sub (n : KvNotification) : NosKvSub := ⟨n.notify, n.arg⟩

def KvNotification.args (n : KvNotification) : Option Bytes × ℕ := (n.val, n.valLen)

/-- The steps of threads that put: a call up to its store, and one callback. -/
inductive KvNotifyAction (P : Type*) where
  | put (p : P) (val : Option Bytes) (valLen : ℕ)
  | notify (p : P)

/-- A table, the callbacks that the puts have still to make, the stores and the callbacks made so
far, each callback with the ticket of its put. -/
structure KvNotifying (P : Type*) where
  table : NosKvTable
  pending : P → List KvNotification
  ticket : P → ℕ
  stored : List (Option Bytes × ℕ)
  received : List (ℕ × KvNotification)

namespace NosKvTable

variable {table table' : NosKvTable} {chain : ℕ → List ℕ} {key : Bytes} {val : Option Bytes}
  {valLen b i keySize : ℕ} {st : NosStatus} {notified : List KvNotification} {subs : List NosKvSub}

def SubsDistinct (table : NosKvTable) : Prop :=
  ∀ offset, (table.poolMem offset).subList.Nodup

theorem SubsDistinct.setEntry (h : table.SubsDistinct) {entry : NosKvEntry}
    (he : entry.subList.Nodup) : (table.setEntry i entry).SubsDistinct := by
  intro offset
  change (Function.update table.poolMem _ entry offset).subList.Nodup
  rw [Function.update_apply]
  split
  · exact he
  · exact h offset

theorem SubsDistinct.getEntry (h : table.SubsDistinct) (i : ℕ) :
    (table.getEntry i).subList.Nodup :=
  h _

theorem SubsDistinct.delete (h : table.SubsDistinct) {prev : ℕ} :
    (table.delete b prev i).SubsDistinct := by
  have hunlink : (table.unlink b prev i).SubsDistinct := by
    unfold NosKvTable.unlink
    split
    · exact h
    · exact h.setEntry (h.getEntry prev)
  exact hunlink.setEntry List.nodup_nil

theorem Kept.subsDistinct_write (h : table.Kept keySize) (hsubs : table.SubsDistinct)
    {call : KvWrite} (hk : call.key.length = keySize) (hw : table.write call = some table') :
    table'.SubsDistinct := by
  obtain ⟨rfl, -, chain, hinv⟩ := h
  cases call with
  | put key val valLen =>
    obtain ⟨⟨st, table', notified⟩, hput, rfl⟩ := Option.map_eq_some_iff.mp hw
    rcases hinv.nosKvPut_cases hk hput with ⟨-, rfl, -⟩ | ⟨b, -, -, -, hcase⟩
    · exact hsubs
    · rcases hcase with ⟨i, -, -, rfl, -⟩ | ⟨-, -, rfl, -⟩
      · exact hsubs.setEntry (hsubs.getEntry i)
      · exact hsubs.setEntry List.nodup_nil
  | del key =>
    obtain ⟨⟨st, table'⟩, hdel, rfl⟩ := Option.map_eq_some_iff.mp hw
    rcases hinv.nosKvDel_cases hk hdel with ⟨-, rfl⟩ | ⟨b, l₁, i, l₂, -, -, -, -, rfl⟩
    · exact hsubs
    · exact hsubs.delete
  | subscribe key sub =>
    obtain ⟨⟨st, table'⟩, hsub, rfl⟩ := Option.map_eq_some_iff.mp hw
    rcases nosKvSubscribe_cases hsub with rfl | ⟨i, hnew, rfl⟩
    · exact hsubs
    · exact hsubs.setEntry (List.nodup_cons.mpr ⟨hnew, hsubs.getEntry i⟩)
  | unsubscribe key sub =>
    obtain ⟨⟨st, table'⟩, hsub, rfl⟩ := Option.map_eq_some_iff.mp hw
    rcases nosKvUnsubscribe_cases hsub with rfl | ⟨i, rfl⟩
    · exact hsubs
    · exact hsubs.setEntry ((hsubs.getEntry i).erase _)

/-- The key is live in the record, which has the subscribers. -/
structure Live (table : NosKvTable) (key : Bytes) (i : ℕ) (subs : List NosKvSub)
    (chain : ℕ → List ℕ) : Prop where
  inv : table.Inv chain
  key_length : key.length = table.keySize
  chained : ∃ b < table.bucketCount, i ∈ chain b
  key_eq : table.keyAt i = key
  subs_eq : (table.getEntry i).subList = subs

theorem Live.nosKvPut_cases (h : table.Live key i subs chain)
    (hput : table.nosKvPut key val valLen = some (st, table', notified)) :
    (st ≠ .ok ∧ table' = table ∧ notified = []) ∨
      (st = .ok ∧ valLen ≤ table.maxValSize ∧ table' = table.overwrite i val valLen ∧
        notified = subs.map fun sub => ⟨sub.notify, val, valLen, sub.arg⟩) := by
  obtain ⟨b, hb, hi⟩ := h.chained
  have hhome := h.inv.home b hb i hi
  rw [h.key_eq] at hhome
  rcases h.inv.nosKvPut_cases h.key_length hput with hfail | ⟨b', hb', hlen, rfl, hcase⟩
  · exact Or.inl hfail
  · obtain rfl : b = b' := Option.some.inj (hhome.symm.trans hb')
    rcases hcase with ⟨j, hj, hkey, rfl, rfl⟩ | ⟨habsent, -⟩
    · obtain rfl := h.inv.key_unique b hb i hi j hj (h.key_eq.trans hkey.symm)
      exact Or.inr ⟨rfl, hlen, rfl, by rw [h.subs_eq]⟩
    · exact absurd h.key_eq (habsent i hi)

theorem Live.overwrite (h : table.Live key i subs chain) (hv : valLen ≤ table.maxValSize) :
    (table.overwrite i val valLen).Live key i subs chain := by
  obtain ⟨b, hb, hi⟩ := h.chained
  constructor
  · exact h.inv.overwrite hb hi hv
  · exact h.key_length
  · exact ⟨b, hb, hi⟩
  · rw [h.inv.keyAt_overwrite hb hi (h.inv.used_lt b hb i hi), h.key_eq]
  · rw [NosKvTable.overwrite, getEntry_setEntry_self, h.subs_eq]

theorem Live.nosKvGet (h : table.Live key i subs chain) :
    table.nosKvGet key (table.getEntry i).valLen =
      some (.ok, table.valueAt i, (table.getEntry i).valLen) := by
  obtain ⟨b, hb, hi⟩ := h.chained
  have hhome := h.inv.home b hb i hi
  rw [h.key_eq] at hhome
  rcases h.inv.lookup h.key_length hb with ⟨-, habsent⟩ | ⟨l₁, j, l₂, hc, hj, hw⟩
  · exact absurd h.key_eq (habsent i hi)
  · obtain rfl := h.inv.key_unique b hb i hi j (by simp [hc]) (h.key_eq.trans hj.symm)
    simp [NosKvTable.nosKvGet, hhome, hw, valueAt]

end NosKvTable

namespace KvNotifying

variable {P : Type*}

def start (table : NosKvTable) : KvNotifying P := ⟨table, fun _ => [], fun _ => 0, [], []⟩

def Quiescent (s : KvNotifying P) : Prop := ∀ p, s.pending p = []

def deliveries (s : KvNotifying P) (sub : NosKvSub) : List (ℕ × KvNotification) :=
  s.received.filter fun r => r.2.sub = sub

def receivedBy (s : KvNotifying P) (sub : NosKvSub) : List (Option Bytes × ℕ) :=
  (s.deliveries sub).map fun r => r.2.args

def tickets (s : KvNotifying P) (sub : NosKvSub) : List ℕ := (s.deliveries sub).map Prod.fst

variable [DecidableEq P]

/-- One step of a thread that puts to the key. A thread puts when its last put has returned, and
passes as many bytes as it says. -/
def step (key : Bytes) (s : KvNotifying P) : KvNotifyAction P → Option (KvNotifying P)
  | .put p val valLen =>
    if s.pending p ≠ [] ∨ (val.map List.length).getD valLen ≠ valLen then none
    else
      (s.table.nosKvPut key val valLen).map fun r =>
        { table := r.2.1
          pending := Function.update s.pending p r.2.2
          ticket := Function.update s.ticket p s.stored.length
          stored := if r.1 = .ok then s.stored ++ [(val, valLen)] else s.stored
          received := s.received }
  | .notify p =>
    match s.pending p with
    | [] => none
    | n :: rest =>
      some { s with
        pending := Function.update s.pending p rest
        received := s.received ++ [(s.ticket p, n)] }

/-- Puts do not overlap: none stores before the earlier ones have made all their callbacks. -/
def Apart (s : KvNotifying P) : KvNotifyAction P → Prop
  | .put _ _ _ => s.Quiescent
  | .notify _ => True

/-- Every subscriber has received what was stored, once for each store. -/
def Delivered (s : KvNotifying P) (sub : NosKvSub) : Prop := (s.receivedBy sub).Perm s.stored

/-- The subscriber has received what was stored in the order of the stores, and if it has received
a value at last, this is what a read of the table gets. -/
def Converged (key : Bytes) (s : KvNotifying P) (sub : NosKvSub) : Prop :=
  s.receivedBy sub = s.stored ∧
    ∀ val valLen, (s.receivedBy sub).getLast? = some (some val, valLen) →
      s.table.nosKvGet key valLen = some (.ok, val, valLen)

omit [DecidableEq P]

variable {s s' : KvNotifying P} {sub : NosKvSub} {subs : List NosKvSub} {key : Bytes} {i : ℕ}
  {chain : ℕ → List ℕ} {p : P} {n : KvNotification} {rest : List KvNotification}

/-- The callback of the put with the ticket has been made, or a thread has still to make it. -/
def At (s : KvNotifying P) (sub : NosKvSub) : Option P → ℕ → Prop
  | none, t => t ∈ s.tickets sub
  | some p, t => s.ticket p = t ∧ sub ∈ (s.pending p).map KvNotification.sub

/-- The callbacks for a subscriber are made once for each ticket, with what was stored. -/
structure Delivering (s : KvNotifying P) (sub : NosKvSub) : Prop where
  places : Partition (s.At sub) (· < s.stored.length)
  nodup : (s.tickets sub).Nodup
  once : ∀ p, ((s.pending p).map KvNotification.sub).Nodup
  carried : ∀ r ∈ s.received, s.stored[r.1]? = some r.2.args
  carrying : ∀ p, ∀ n ∈ s.pending p, s.stored[s.ticket p]? = some n.args

/-- The record holds what was stored last. -/
structure Holding (s : KvNotifying P) (key : Bytes) (i : ℕ) (subs : List NosKvSub)
    (chain : ℕ → List ℕ) : Prop where
  live : s.table.Live key i subs chain
  last : ∀ val valLen, s.stored.getLast? = some (some val, valLen) →
    s.table.valueAt i = val ∧ (s.table.getEntry i).valLen = valLen

/-- Only the put that has stored last has callbacks to make. -/
def OneAtATime (s : KvNotifying P) : Prop :=
  ∀ p, s.pending p ≠ [] → s.ticket p + 1 = s.stored.length

theorem Delivering.lt_ticket (h : s.Delivering sub) (hone : s.OneAtATime)
    (hpending : s.pending p = n :: rest) (hn : n.sub = sub) :
    ∀ t ∈ s.tickets sub, t < s.ticket p := by
  intro t ht
  have hat : s.At sub (some p) (s.ticket p) := ⟨rfl, by simp [hpending, hn]⟩
  have hlast := hone p (by simp [hpending])
  have hlt := h.places.valid none t ht
  have hne : t ≠ s.ticket p := by
    rintro rfl
    cases h.places.unique none (some p) _ ht hat
  omega

theorem map_some_receivedBy (h : s.Delivering sub) :
    (s.receivedBy sub).map some = (s.tickets sub).map (s.stored[·]?) := by
  unfold receivedBy tickets
  rw [List.map_map, List.map_map]
  refine List.map_congr_left fun r hr => ?_
  exact (h.carried r (List.mem_of_mem_filter hr)).symm

theorem map_getElem?_range (l : List (Option Bytes × ℕ)) :
    (List.range l.length).map (l[·]?) = l.map some := by
  apply List.ext_getElem
  · simp
  · intro k hk hk'
    simp

theorem Delivering.tickets_perm (h : s.Delivering sub) (hquiet : s.Quiescent) :
    (s.tickets sub).Perm (List.range s.stored.length) := by
  refine (List.perm_ext_iff_of_nodup h.nodup List.nodup_range).mpr fun t => ?_
  rw [List.mem_range]
  constructor
  · exact h.places.valid none t
  · intro ht
    obtain ⟨_ | p, hat⟩ := h.places.placed t ht
    · exact hat
    · rw [At, hquiet p] at hat
      simp at hat

theorem Delivering.delivered (h : s.Delivering sub) (hquiet : s.Quiescent) : s.Delivered sub := by
  have hperm := (h.tickets_perm hquiet).map (s.stored[·]?)
  rw [← map_some_receivedBy h, map_getElem?_range] at hperm
  exact (List.map_perm_map_iff (Option.some_injective _)).mp hperm

/-- Tickets delivered in their order are all tickets in their order. -/
theorem Delivering.receivedBy_eq (h : s.Delivering sub) (hquiet : s.Quiescent)
    (hsorted : (s.tickets sub).Pairwise (· < ·)) : s.receivedBy sub = s.stored := by
  have htickets : s.tickets sub = List.range s.stored.length :=
    (h.tickets_perm hquiet).eq_of_pairwise' hsorted List.pairwise_lt_range
  have hmap := map_some_receivedBy h
  rw [htickets, map_getElem?_range] at hmap
  exact List.map_injective_iff.mpr (Option.some_injective _) hmap

theorem Holding.converged (hold : s.Holding key i subs chain) (h : s.Delivering sub)
    (hquiet : s.Quiescent) (hsorted : (s.tickets sub).Pairwise (· < ·)) :
    s.Converged key sub := by
  have heq := h.receivedBy_eq hquiet hsorted
  refine ⟨heq, fun val valLen hlast => ?_⟩
  obtain ⟨rfl, rfl⟩ := hold.last val valLen (heq ▸ hlast)
  exact hold.live.nosKvGet

theorem tickets_notify {pending : P → List KvNotification} {t : ℕ} :
    tickets { s with pending := pending, received := s.received ++ [(t, n)] } sub =
      if n.sub = sub then s.tickets sub ++ [t] else s.tickets sub := by
  unfold tickets deliveries
  rw [List.filter_append, List.map_append]
  split <;> simp [*]

variable [DecidableEq P]

/-- What a step can do on a live key. A put that fails changes no history. -/
theorem Holding.step_cases (h : s.Holding key i subs chain) {a : KvNotifyAction P}
    (hs : s.step key a = some s') :
    (∃ p val valLen, a = .put p val valLen ∧ s.pending p = [] ∧
      (val.map List.length).getD valLen = valLen ∧
        ((s'.table = s.table ∧ s'.pending = s.pending ∧ s'.stored = s.stored ∧
            s'.received = s.received ∧ ∀ q ≠ p, s'.ticket q = s.ticket q) ∨
          (valLen ≤ s.table.maxValSize ∧
            s' = { table := s.table.overwrite i val valLen
                   pending := Function.update s.pending p
                    (subs.map fun sub => ⟨sub.notify, val, valLen, sub.arg⟩)
                   ticket := Function.update s.ticket p s.stored.length
                   stored := s.stored ++ [(val, valLen)]
                   received := s.received }))) ∨
      ∃ p n rest, a = .notify p ∧ s.pending p = n :: rest ∧
        s' = { s with
          pending := Function.update s.pending p rest
          received := s.received ++ [(s.ticket p, n)] } := by
  cases a with
  | put p val valLen =>
    simp only [step] at hs
    split at hs
    · cases hs
    · rename_i hready
      rw [not_or, not_not, not_not] at hready
      obtain ⟨⟨st, table', notified⟩, hput, rfl⟩ := Option.map_eq_some_iff.mp hs
      refine Or.inl ⟨p, val, valLen, rfl, hready.1, hready.2, ?_⟩
      rcases h.live.nosKvPut_cases hput with ⟨hst, rfl, rfl⟩ | ⟨rfl, hlen, rfl, rfl⟩
      · refine Or.inl ⟨rfl, ?_, if_neg hst, rfl, fun q hq => Function.update_of_ne hq _ _⟩
        exact Function.update_eq_self_iff.mpr hready.1.symm
      · exact Or.inr ⟨hlen, rfl⟩
  | notify p =>
    simp only [step] at hs
    split at hs
    · cases hs
    · rename_i n rest hpending
      obtain rfl := Option.some.inj hs
      exact Or.inr ⟨p, n, rest, rfl, hpending, rfl⟩

theorem Delivering.failed (h : s.Delivering sub) (hpending : s'.pending = s.pending)
    (hstored : s'.stored = s.stored) (hreceived : s'.received = s.received)
    (hidle : s.pending p = []) (hticket : ∀ q ≠ p, s'.ticket q = s.ticket q) :
    s'.Delivering sub := by
  have htickets : s'.tickets sub = s.tickets sub := by
    unfold tickets deliveries
    rw [hreceived]
  constructor
  · refine h.places.congr ?_ fun t => by rw [hstored]
    rintro (_ | q) t
    · simp only [At, htickets]
    · by_cases hq : q = p
      · simp [At, hpending, hq, hidle]
      · simp only [At, hpending, hticket q hq]
  · rw [htickets]
    exact h.nodup
  · rw [hpending]
    exact h.once
  · rw [hreceived, hstored]
    exact h.carried
  · rw [hpending, hstored]
    intro q n hn
    have hq : q ≠ p := by
      rintro rfl
      simp [hidle] at hn
    rw [hticket q hq]
    exact h.carrying q n hn

theorem getElem?_stored {l : List (Option Bytes × ℕ)} {x y : Option Bytes × ℕ} {t : ℕ}
    (h : l[t]? = some x) : (l ++ [y])[t]? = some x := by
  obtain ⟨ht, rfl⟩ := List.getElem?_eq_some_iff.mp h
  rw [List.getElem?_append_left ht, List.getElem?_eq_getElem ht]

theorem Delivering.put (h : s.Delivering sub) {table : NosKvTable} {val : Option Bytes}
    {valLen : ℕ} (hidle : s.pending p = []) (hsub : sub ∈ subs) (hsubs : subs.Nodup) :
    Delivering
      { table := table
        pending := Function.update s.pending p
          (subs.map fun sub => ⟨sub.notify, val, valLen, sub.arg⟩)
        ticket := Function.update s.ticket p s.stored.length
        stored := s.stored ++ [(val, valLen)]
        received := s.received } sub := by
  have hmap : (subs.map fun sub => (⟨sub.notify, val, valLen, sub.arg⟩ : KvNotification)).map
      KvNotification.sub = subs := by
    rw [List.map_map]
    exact List.map_id _
  constructor
  · refine h.places.put (p := some p) (i := s.stored.length) ?_ ?_
    · rintro (_ | q) t
      · refine ⟨fun ht => Or.inr ⟨?_, ht⟩, ?_⟩
        · exact (h.places.valid none t ht).ne
        · rintro (⟨-, hne⟩ | ⟨-, ht⟩)
          · cases hne
          · exact ht
      · by_cases hq : q = p
        · subst hq
          simp only [At, Function.update_self, hmap, hsub, and_true, hidle]
          simp [eq_comm]
        · simp only [At, Function.update_of_ne hq, Option.some.injEq, hq, and_false, false_or]
          refine ⟨fun hat => ⟨?_, hat⟩, And.right⟩
          exact (h.places.valid (some q) t hat).ne
    · intro t
      rw [List.length_append, List.length_singleton]
      omega
  · exact h.nodup
  · intro q
    show ((Function.update s.pending p _ q).map KvNotification.sub).Nodup
    rw [Function.update_apply]
    split
    · rw [hmap]
      exact hsubs
    · exact h.once q
  · exact fun r hr => getElem?_stored (h.carried r hr)
  · intro q n hn
    by_cases hq : q = p
    · subst hq
      simp only [Function.update_self] at hn ⊢
      obtain ⟨sub', -, rfl⟩ := List.mem_map.mp hn
      simp [KvNotification.args]
    · simp only [Function.update_of_ne hq] at hn ⊢
      exact getElem?_stored (h.carrying q n hn)

theorem Delivering.notify (h : s.Delivering sub) (hpending : s.pending p = n :: rest) :
    Delivering { s with
      pending := Function.update s.pending p rest
      received := s.received ++ [(s.ticket p, n)] } sub := by
  have honce := h.once p
  rw [hpending, List.map_cons, List.nodup_cons] at honce
  constructor
  · by_cases hn : n.sub = sub
    · have hat : s.At sub (some p) (s.ticket p) := ⟨rfl, by simp [hpending, hn]⟩
      refine h.places.put (p := none) (i := s.ticket p) ?_ ?_
      · rintro (_ | q) t
        · rw [At, tickets_notify, if_pos hn, List.mem_append, List.mem_singleton]
          by_cases ht : t = s.ticket p <;> simp [ht, At]
        · by_cases hq : q = p
          · subst hq
            rw [hn] at honce
            simp only [At, Function.update_self, honce.1, and_false, reduceCtorEq, false_or,
              false_iff, not_and]
            exact fun hne he => absurd he.symm hne
          · simp only [At, Function.update_of_ne hq, reduceCtorEq, and_false, false_or]
            refine ⟨fun hat' => ⟨?_, hat'⟩, And.right⟩
            rintro rfl
            exact hq (Option.some.inj (h.places.unique (some q) (some p) _ hat' hat))
      · intro t
        refine ⟨Or.inr, ?_⟩
        rintro (rfl | ht)
        · exact h.places.valid _ _ hat
        · exact ht
    · refine h.places.congr ?_ fun _ => Iff.rfl
      rintro (_ | q) t
      · rw [At, tickets_notify, if_neg hn]
        exact Iff.rfl
      · by_cases hq : q = p
        · subst hq
          simp [At, hpending, Ne.symm hn]
        · simp only [At, Function.update_of_ne hq]
  · rw [tickets_notify]
    split
    · rename_i hn
      have hat : s.At sub (some p) (s.ticket p) := ⟨rfl, by simp [hpending, hn]⟩
      refine List.nodup_append.mpr ⟨h.nodup, List.nodup_singleton _, fun t ht t' ht' he => ?_⟩
      obtain rfl := List.mem_singleton.mp ht'
      subst he
      cases h.places.unique none (some p) _ ht hat
    · exact h.nodup
  · intro q
    show ((Function.update s.pending p _ q).map KvNotification.sub).Nodup
    rw [Function.update_apply]
    split
    · exact honce.2
    · exact h.once q
  · intro r hr
    rcases List.mem_append.mp hr with hr | hr
    · exact h.carried r hr
    · obtain rfl := List.mem_singleton.mp hr
      exact h.carrying p n (by simp [hpending])
  · intro q m hm
    refine h.carrying q m ?_
    change m ∈ Function.update s.pending p rest q at hm
    rw [Function.update_apply] at hm
    split at hm
    · rename_i hq
      rw [hq, hpending]
      exact List.mem_cons_of_mem n hm
    · exact hm

theorem Holding.step (h : s.Holding key i subs chain) {a : KvNotifyAction P}
    (hs : s.step key a = some s') : s'.Holding key i subs chain := by
  rcases h.step_cases hs with ⟨p, val, valLen, -, -, hlen, hcase⟩ | ⟨p, n, rest, -, -, rfl⟩
  · rcases hcase with ⟨htable, -, hstored, -, -⟩ | ⟨hmax, rfl⟩
    · constructor
      · rw [htable]
        exact h.live
      · rw [htable, hstored]
        exact h.last
    · refine ⟨h.live.overwrite hmax, fun v n hlast => ?_⟩
      rw [List.getLast?_concat] at hlast
      cases hlast
      obtain ⟨b, hb, hi⟩ := h.live.chained
      refine ⟨h.live.inv.valueAt_overwrite_self hb hi hlen, ?_⟩
      rw [NosKvTable.overwrite, NosKvTable.getEntry_setEntry_self]
  · exact ⟨h.live, h.last⟩

theorem Delivering.step (h : s.Delivering sub) (hold : s.Holding key i subs chain)
    (hsub : sub ∈ subs) (hsubs : subs.Nodup) {a : KvNotifyAction P}
    (hs : s.step key a = some s') : s'.Delivering sub := by
  rcases hold.step_cases hs with ⟨p, val, valLen, -, hidle, -, hcase⟩ | ⟨p, n, rest, -, hp, rfl⟩
  · rcases hcase with ⟨-, hpending, hstored, hreceived, hticket⟩ | ⟨-, rfl⟩
    · exact h.failed hpending hstored hreceived hidle hticket
    · exact h.put hidle hsub hsubs
  · exact h.notify hp

theorem OneAtATime.step (h : s.OneAtATime) (hold : s.Holding key i subs chain)
    {a : KvNotifyAction P} (hapart : s.Apart a) (hs : s.step key a = some s') :
    s'.OneAtATime := by
  rcases hold.step_cases hs with ⟨p, val, valLen, rfl, -, -, hcase⟩ | ⟨p, n, rest, rfl, hp, rfl⟩
  · rcases hcase with ⟨-, hpending, -⟩ | ⟨-, rfl⟩
    · intro q hq
      rw [hpending] at hq
      exact absurd (hapart q) hq
    · intro q hq
      by_cases hqp : q = p
      · simp [hqp]
      · refine absurd ?_ hq
        show Function.update s.pending p _ q = []
        rw [Function.update_of_ne hqp]
        exact hapart q
  · intro q hq
    refine h q fun he => hq ?_
    show Function.update s.pending p rest q = []
    rw [Function.update_of_ne, he]
    rintro rfl
    rw [hp] at he
    cases he

/-- Puts that do not overlap deliver the tickets in order. -/
theorem Holding.sorted_step (hold : s.Holding key i subs chain) (hdel : s.Delivering sub)
    (hone : s.OneAtATime) {a : KvNotifyAction P} (hsorted : (s.tickets sub).Pairwise (· < ·))
    (hs : s.step key a = some s') : (s'.tickets sub).Pairwise (· < ·) := by
  rcases hold.step_cases hs with ⟨p, val, valLen, -, -, -, hcase⟩ | ⟨p, n, rest, rfl, hp, rfl⟩
  · rcases hcase with ⟨-, -, -, hreceived, -⟩ | ⟨-, rfl⟩
    · unfold tickets deliveries at *
      rw [hreceived]
      exact hsorted
    · exact hsorted
  · rw [tickets_notify]
    split
    · rename_i hn
      refine List.pairwise_append.mpr ⟨hsorted, List.pairwise_singleton _ _, ?_⟩
      intro t ht t' ht'
      obtain rfl := List.mem_singleton.mp ht'
      exact hdel.lt_ticket hone hp hn t ht
    · exact hsorted

omit [DecidableEq P] in
theorem delivering_start {table : NosKvTable} : (start table : KvNotifying P).Delivering sub where
  places := by
    constructor
    · rintro (_ | p) t hat <;> simp [At, start, tickets, deliveries] at hat
    · rintro t ⟨⟩
    · rintro (_ | p) q t hat <;> simp [At, start, tickets, deliveries] at hat
  nodup := List.nodup_nil
  once _ := List.nodup_nil
  carried _ hr := nomatch hr
  carrying _ _ hn := nomatch hn

section Runs

variable {tables : List NosKvTable} {name : Bytes} {keySize maxValSize capacity b prev : ℕ}
  {memory : Bool} {created table : NosKvTable} {calls : List KvWrite}
  {actions : List (KvNotifyAction P)}

omit [DecidableEq P]

theorem kept_of_exec
    (h : nosKvTableCreate tables name keySize maxValSize capacity memory =
      some (tables ++ [created], some tables.length))
    (hfit : capacity * (sizeofNosKvEntry + keySize + maxValSize) < 2 ^ 32)
    (hkeys : ∀ call ∈ calls, call.key.length = keySize)
    (hrun : Run.exec NosKvTable.write created calls = some table) :
    table.Kept keySize ∧ table.SubsDistinct := by
  obtain ⟨hc, hnew⟩ := NosKvTable.newTable_of_create h
  have hcreated : created.SubsDistinct := by
    obtain ⟨bucketCount, -, rfl⟩ := Option.map_eq_some_iff.mp hnew
    exact fun _ => List.nodup_nil
  refine (Run.always_of_guarded (I := fun t => t.Kept keySize ∧ t.SubsDistinct) ?_
    (fun _ ht => ht) ⟨NosKvTable.kept_newTable hc hfit hnew, hcreated⟩
    (Run.guarded_of_forall hkeys)).last hrun
  rintro t call t' ⟨hkept, hdistinct⟩ hkey hw
  exact ⟨hkept.write hkey hw, hkept.subsDistinct_write hdistinct hkey hw⟩

theorem holding_start (hkept : table.Kept keySize) (hk : key.length = keySize)
    (hb : table.bucketOf key = some b) (hlive : table.lookup b key = .found prev i) :
    ∃ chain, (start table : KvNotifying P).Holding key i (table.getEntry i).subList chain := by
  obtain ⟨rfl, -, chain, hinv⟩ := hkept
  have hlt := hinv.geometry.bucketOf_lt hb
  refine ⟨chain, ?_, fun _ _ hlast => nomatch hlast⟩
  rcases hinv.lookup hk hlt with ⟨hw, -⟩ | ⟨l₁, j, l₂, hc, hj, hw⟩
  · rw [hlive] at hw
    cases hw
  · rw [hlive] at hw
    cases hw
    exact ⟨hinv, hk, ⟨b, hlt, by simp [hc]⟩, hj, rfl⟩

variable [DecidableEq P]

/-- Puts on a live key, by any number of threads, deliver to every subscriber of the key what they
store, once. If they do not overlap, it receives at last what is stored at last. -/
theorem always_delivered
    (h : nosKvTableCreate tables name keySize maxValSize capacity memory =
      some (tables ++ [created], some tables.length))
    (hfit : capacity * (sizeofNosKvEntry + keySize + maxValSize) < 2 ^ 32)
    (hkeys : ∀ call ∈ calls, call.key.length = keySize)
    (hrun : Run.exec NosKvTable.write created calls = some table)
    (hk : key.length = keySize) (hb : table.bucketOf key = some b)
    (hlive : table.lookup b key = .found prev i) (hsub : sub ∈ (table.getEntry i).subList) :
    Run.Always (step key) (fun s : KvNotifying P => s.Quiescent → s.Delivered sub) (start table)
        actions ∧
      (Run.Guarded (step key) Apart (start table) actions →
        Run.Always (step key) (fun s : KvNotifying P => s.Quiescent → s.Converged key sub)
          (start table) actions) := by
  obtain ⟨hkept, hdistinct⟩ := kept_of_exec h hfit hkeys hrun
  obtain ⟨chain, hold⟩ := holding_start (P := P) hkept hk hb hlive
  have hsubs := hdistinct.getEntry i
  have hstart : (start table : KvNotifying P).Delivering sub := delivering_start
  constructor
  · refine Run.always_of_invariant
      (I := fun s => s.Holding key i (table.getEntry i).subList chain ∧ s.Delivering sub) ?_ ?_
      ⟨hold, hstart⟩
    · rintro s a s' ⟨hold, hdel⟩ hs
      exact ⟨hold.step hs, hdel.step hold hsub hsubs hs⟩
    · rintro s ⟨-, hdel⟩ hquiet
      exact hdel.delivered hquiet
  · refine Run.always_of_guarded
      (I := fun s => s.Holding key i (table.getEntry i).subList chain ∧ s.Delivering sub ∧
        s.OneAtATime ∧ (s.tickets sub).Pairwise (· < ·)) ?_ ?_
      ⟨hold, hstart, fun _ hne => absurd rfl hne, List.Pairwise.nil⟩
    · rintro s a s' ⟨hold, hdel, hone, hsorted⟩ hapart hs
      exact ⟨hold.step hs, hdel.step hold hsub hsubs hs, hone.step hold hapart hs,
        hold.sorted_step hdel hone hsorted hs⟩
    · rintro s ⟨hold, hdel, -, hsorted⟩ hquiet
      exact hold.converged hdel hquiet hsorted

/-- Two threads put to a key with one subscriber: the second one between the store and the callback
of the first one, and after it. -/
theorem delivered_two_puts : ∃ created table,
    nosKvTableCreate [] [107, 118] 1 8 2 true = some ([] ++ [created], some 0) ∧
      Run.exec NosKvTable.write created [.put [1] none 0, .subscribe [1] ⟨1, 5⟩] = some table ∧
        Run.Always (step [1]) (fun s : KvNotifying Bool => s.Quiescent → s.Delivered ⟨1, 5⟩)
          (start table) [.put false (some [7]) 1, .put true (some [9]) 1, .notify false,
            .notify true] ∧
        Run.Always (step [1]) (fun s : KvNotifying Bool => s.Quiescent → s.Converged [1] ⟨1, 5⟩)
          (start table) [.put false (some [7]) 1, .notify false, .put true (some [9]) 1,
            .notify true] := by
  have hcreate : nosKvTableCreate [] [107, 118] 1 8 2 true =
      some ([] ++ [(newTable [107, 118] 1 8 2).get rfl], some ([] : List NosKvTable).length) := rfl
  have hkeys : ∀ call ∈ [KvWrite.put [1] none 0, .subscribe [1] ⟨1, 5⟩], call.key.length = 1 := by
    simp [KvWrite.key]
  have hrun : Run.exec NosKvTable.write ((newTable [107, 118] 1 8 2).get rfl)
      [.put [1] none 0, .subscribe [1] ⟨1, 5⟩] = some ((Run.exec NosKvTable.write
        ((newTable [107, 118] 1 8 2).get rfl) [.put [1] none 0, .subscribe [1] ⟨1, 5⟩]).get rfl) :=
    rfl
  refine ⟨_, _, hcreate, hrun,
    (always_delivered (b := 427) (i := 1) hcreate (by decide) hkeys hrun rfl rfl rfl ?_).1,
    (always_delivered (b := 427) (i := 1) hcreate (by decide) hkeys hrun rfl rfl rfl ?_).2 ?_⟩
  · decide
  · decide
  · refine .cons rfl ?_ (.cons rfl trivial (.cons rfl ?_ (.cons rfl trivial trivial)))
    · rintro (_ | _) <;> rfl
    · rintro (_ | _) <;> rfl

/-- The thread that stores first calls the subscriber last: the subscriber receives at last the
value that the table does not hold any more. -/
theorem last_received_overtaken : ∃ created table s,
    nosKvTableCreate [] [107, 118] 1 8 2 true = some ([] ++ [created], some 0) ∧
      Run.exec NosKvTable.write created [.put [1] none 0, .subscribe [1] ⟨1, 5⟩] = some table ∧
        Run.exec (step [1]) (start table : KvNotifying Bool)
          [.put false (some [7]) 1, .put true (some [9]) 1, .notify true, .notify false] = some s ∧
          s.Quiescent ∧ (s.receivedBy ⟨1, 5⟩).getLast? = some (some [7], 1) ∧
            s.table.nosKvGet [1] 1 = some (.ok, [9], 1) := by
  refine ⟨(newTable [107, 118] 1 8 2).get rfl, _, _, rfl, rfl, rfl, ?_, ?_, ?_⟩
  · rintro (_ | _) <;> rfl
  · rfl
  · rfl

end Runs

end KvNotifying

end GeminiNOS

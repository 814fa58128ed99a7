import Mathlib.Data.List.Nodup
import GeminiNOS.Foundations.Places
import GeminiNOS.Log.LogOrder
import GeminiNOS.Log.SlotExclusion

/-! # Conservation of log lines

A call that passes its filter takes a ticket. The ticket is with its producer, in a
ready slot, printed or counted as dropped, and at one of these places only. The
consumer ends at the first slot that is not ready once the log is shut down, so the
lines in further slots are neither printed nor counted.
-/

namespace GeminiNOS

open Foundations Run

/-- The log, the ticket that each producer is about to count as dropped, the tickets that have been
counted, and those of the calls that returned before `nos_log_deinit` was called. -/
structure LogAccount (P : Type*) where
  context : NosLogContext P
  current : P → ℕ
  counted : List ℕ
  returned : List ℕ

inductive LogPlace (P : Type*) where
  | producer (p : P)
  | slot (idx : ℕ)
  | printed
  | counted

namespace LogAccount

variable {P : Type*}

/-- The log after `nos_log_init`. -/
def init : LogAccount P := ⟨NosLogContext.init, fun _ => 0, [], []⟩

/-- The calls that have returned, with one that returns now. -/
def ret (s : LogAccount P) (ticket : ℕ) : List ℕ :=
  if s.context.keepRunning then s.returned ++ [ticket] else s.returned

/-- One step of the log. A call returns with the count of its drop or with the last store. -/
def step [DecidableEq P] (s : LogAccount P) (a : LogAction P) : Option (LogAccount P) :=
  (s.context.step a).map fun context =>
    match a with
    | .produce p =>
      match s.context.producer p with
      | .cas _ ticket _ =>
        { s with context := context, current := Function.update s.current p ticket }
      | .drop =>
        { s with
          context := context
          counted := s.counted ++ [s.current p]
          returned := s.ret (s.current p) }
      | .store _ ticket => { s with context := context, returned := s.ret ticket }
      | _ => { s with context := context }
    | _ => { s with context := context }

def accounted (s : LogAccount P) (ticket : ℕ) : ℕ :=
  (s.context.printed.map Prod.fst).count ticket + s.counted.count ticket

/-- When the consumer has ended, which `nos_log_deinit` waits for, each call that returned before is
printed once or counted once in `dropped_count`. -/
def Conserved (s : LogAccount P) : Prop :=
  s.context.consumer = .stopped →
    s.context.droppedCount = u64 s.counted.length ∧ ∀ ticket ∈ s.returned, s.accounted ticket = 1

/-- No call that returned in time has its line in a ready slot. -/
def NoneLeft (s : LogAccount P) : Prop :=
  ∀ idx, (s.context.ring idx).ready = .ready → (s.context.ring idx).ticket ∉ s.returned

/-- When the consumer ends at a slot that is not ready, no slot holds the line of a call that
returned in time. -/
def StopsEmpty (s : LogAccount P) : LogAction P → Prop
  | .consume => s.context.consumer = .loadLast → s.context.readSlot.ready ≠ .ready → s.NoneLeft
  | _ => True

def held (s : LogAccount P) (p : P) : Option ℕ :=
  match s.context.producer p with
  | .cas _ ticket _ | .write _ ticket _ | .store _ ticket => some ticket
  | .drop => some (s.current p)
  | _ => none

/-- A ticket is at a place. A slot has given its ticket away once its line is printed. -/
def At (s : LogAccount P) : LogPlace P → ℕ → Prop
  | .producer p, ticket => s.held p = some ticket
  | .slot idx, ticket =>
    (s.context.ring idx).ready = .ready ∧ (s.context.ring idx).ticket = ticket ∧
      (s.context.consumer = .clear → idx ≠ s.context.readIdx % logBufferSize)
  | .printed, ticket => ticket ∈ s.context.printed.map Prod.fst
  | .counted, ticket => ticket ∈ s.counted

/-- Each ticket is at one place, and the tickets of returned calls are with no producer. -/
structure Inv (s : LogAccount P) : Prop where
  owned : s.context.Owned
  places : Partition s.At (· < s.context.lines.length)
  printed : (s.context.printed.map Prod.fst).Nodup
  counted : s.counted.Nodup
  returned : ∀ ticket ∈ s.returned, ticket < s.context.lines.length ∧ ∀ p, s.held p ≠ some ticket
  dropped : s.context.droppedCount = u64 s.counted.length
  stopping : s.context.consumer = .loadLast ∨ s.context.consumer = .stopped →
    s.context.keepRunning = false

variable {s s' : LogAccount P} {a : LogAction P} {p : P} {ticket idx : ℕ}
  {context : NosLogContext P}

theorem inv_init : (init : LogAccount P).Inv where
  owned := NosLogContext.owned_init
  places := by
    refine ⟨?_, fun k hk => absurd hk (Nat.not_lt_zero k), ?_⟩
    · rintro (p | idx | _ | _) k hk
      · cases hk
      · cases hk.1
      · cases hk
      · cases hk
    · rintro (p | idx | _ | _) q k hk -
      · cases hk
      · cases hk.1
      · cases hk
      · cases hk
  printed := List.nodup_nil
  counted := List.nodup_nil
  returned _ h := absurd h List.not_mem_nil
  dropped := rfl
  stopping h := by rcases h with h | h <;> cases h

/-- Conservation, given the places of the tickets. -/
theorem Inv.conserved_iff (h : s.Inv) :
    s.Conserved ↔ (s.context.consumer = .stopped → s.NoneLeft) := by
  have hslot : s.context.consumer = .stopped → ∀ idx, (s.context.ring idx).ready = .ready →
      s.At (.slot idx) (s.context.ring idx).ticket := by
    intro hstop idx hready
    refine ⟨hready, rfl, fun hc => ?_⟩
    rw [hstop] at hc
    cases hc
  constructor
  · intro hcons hstop idx hready hreturned
    have hat := hslot hstop idx hready
    have hprinted : (s.context.ring idx).ticket ∉ s.context.printed.map Prod.fst := by
      intro hmem
      cases h.places.unique (.slot idx) .printed _ hat hmem
    have hcounted : (s.context.ring idx).ticket ∉ s.counted := by
      intro hmem
      cases h.places.unique (.slot idx) .counted _ hat hmem
    have hone := (hcons hstop).2 _ hreturned
    rw [accounted, List.count_eq_zero_of_not_mem hprinted,
      List.count_eq_zero_of_not_mem hcounted] at hone
    cases hone
  · intro hnone hstop
    refine ⟨h.dropped, fun ticket hreturned => ?_⟩
    obtain ⟨hlt, hheld⟩ := h.returned ticket hreturned
    obtain ⟨place, hat⟩ := h.places.placed ticket hlt
    cases place with
    | producer p => exact absurd hat (hheld p)
    | slot idx =>
      obtain ⟨hready, rfl, -⟩ := hat
      exact absurd hreturned (hnone hstop idx hready)
    | printed =>
      have hcounted : ticket ∉ s.counted := by
        intro hmem
        cases h.places.unique .printed .counted _ hat hmem
      rw [accounted, List.count_eq_one_of_mem h.printed hat,
        List.count_eq_zero_of_not_mem hcounted]
    | counted =>
      have hprinted : ticket ∉ s.context.printed.map Prod.fst := by
        intro hmem
        cases h.places.unique .counted .printed _ hat hmem
      rw [accounted, List.count_eq_zero_of_not_mem hprinted,
        List.count_eq_one_of_mem h.counted hat]

theorem not_running_of_stopping {context' : NosLogContext P}
    (h : context.consumer = .loadLast ∨ context.consumer = .stopped → context.keepRunning = false)
    (hconsumer : context'.consumer = .loadLast ∨ context'.consumer = .stopped →
      context.consumer = .loadLast ∨ context.consumer = .stopped)
    (hrunning : context'.keepRunning = true → context.keepRunning = true) :
    context'.consumer = .loadLast ∨ context'.consumer = .stopped →
      context'.keepRunning = false := by
  intro hc
  have hstop := h (hconsumer hc)
  by_contra hrun
  rw [hrunning (by simpa using hrun)] at hstop
  cases hstop

theorem Inv.congr (h : s.Inv) (howned : s'.context.Owned) (hat : ∀ x k, s'.At x k ↔ s.At x k)
    (hlines : s'.context.lines = s.context.lines)
    (hprinted : s'.context.printed = s.context.printed) (hcounted : s'.counted = s.counted)
    (hdropped : s'.context.droppedCount = s.context.droppedCount)
    (hreturned : s'.returned = s.returned)
    (hstopping : s'.context.consumer = .loadLast ∨ s'.context.consumer = .stopped →
      s'.context.keepRunning = false) : s'.Inv where
  owned := howned
  places := h.places.congr hat fun k => by rw [hlines]
  printed := hprinted ▸ h.printed
  counted := hcounted ▸ h.counted
  returned k hk := by
    rw [hreturned] at hk
    rw [hlines]
    obtain ⟨hlt, hheld⟩ := h.returned k hk
    exact ⟨hlt, fun q hq => hheld q ((hat (.producer q) k).mp hq)⟩
  dropped := by rw [hdropped, hcounted, h.dropped]
  stopping := hstopping

theorem at_congr (hheld : ∀ q, s'.held q = s.held q)
    (hslot : ∀ idx, s'.context.ring idx = s.context.ring idx ∨
      (s'.context.ring idx).ready ≠ .ready ∧ (s.context.ring idx).ready ≠ .ready)
    (hconsumer : s'.context.consumer = s.context.consumer)
    (hread : s'.context.readIdx = s.context.readIdx)
    (hprinted : s'.context.printed = s.context.printed) (hcounted : s'.counted = s.counted)
    (x : LogPlace P) (k : ℕ) : s'.At x k ↔ s.At x k := by
  cases x with
  | producer q => exact Eq.congr_left (hheld q)
  | slot idx =>
    rcases hslot idx with hring | ⟨hnew, hold⟩
    · simp only [At, hring, hconsumer, hread]
    · exact iff_of_false (fun hat => hnew hat.1) fun hat => hold hat.1
  | printed => simp only [At, hprinted]
  | counted => simp only [At, hcounted]

theorem Inv.sameSlots (h : s.Inv) (hsame : s.context.SameSlots context) :
    Inv { s with context := context } := by
  have hheld : ∀ q, held { s with context := context } q = s.held q := by
    intro q
    rcases hsame.producer q with hq | ⟨hq, line, hq'⟩
    · simp only [held, hq]
    · simp only [held, hq, hq']
  refine h.congr (h.owned.sameSlots hsame) ?_ hsame.lines hsame.printed rfl hsame.dropped rfl
    (not_running_of_stopping h.stopping (fun hc => hsame.consumer ▸ hc) hsame.running)
  exact at_congr hheld (fun idx => .inl (by rw [hsame.ring])) hsame.consumer hsame.readIdx
    hsame.printed rfl

theorem mem_ret {k : ℕ} (h : k ∈ s.ret ticket) : k ∈ s.returned ∨ k = ticket := by
  unfold ret at h
  split at h
  · rwa [List.mem_append, List.mem_singleton] at h
  · exact .inl h

/-- Only the write index, the lines and the count of drops differ. -/
structure SameRing (context context' : NosLogContext P) : Prop where
  ring : context'.ring = context.ring
  readIdx : context'.readIdx = context.readIdx
  consumer : context'.consumer = context.consumer
  printed : context'.printed = context.printed
  keepRunning : context'.keepRunning = context.keepRunning
  producer : context'.producer = context.producer

section Produce

variable [DecidableEq P] {pc : LogPc} {current : P → ℕ} {counted returned : List ℕ}

theorem held_setProducer {q : P} (hproducer : context.producer = s.context.producer)
    (hcurrent : current q = s.current q) (hq : q ≠ p) :
    held ⟨context.setProducer p pc, current, counted, returned⟩ q = s.held q := by
  simp only [held, NosLogContext.setProducer, Function.update_of_ne hq, hproducer, hcurrent]

theorem Inv.fetchAdd (h : s.Inv) {line : LogLine} (hp : s.context.producer p = .fetchAdd line)
    (howned : (context.setProducer p pc).Owned) (hsame : SameRing s.context context)
    (hlines : context.lines = s.context.lines ++ [line])
    (hdropped : context.droppedCount = s.context.droppedCount)
    (hpc : pc = .cas idx s.context.lines.length line) :
    Inv { s with context := context.setProducer p pc } := by
  have hself : s.held p = none := by simp [held, hp]
  have hnew : held { s with context := context.setProducer p pc } p =
      some s.context.lines.length := by simp [held, NosLogContext.setProducer, hpc]
  have hlen : context.lines.length = s.context.lines.length + 1 := by simp [hlines]
  refine ⟨howned, ?_, ?_, h.counted, fun k hk => ?_, ?_, ?_⟩
  · refine h.places.insert (i := s.context.lines.length) (p := .producer p) (Nat.lt_irrefl _)
      (fun j => ?_) (fun q j hq => ?_) fun j => ?_
    · simp only [At, hnew, hself, Option.some.injEq, reduceCtorEq, or_false, eq_comm]
    · cases q with
      | producer q =>
        exact Eq.congr_left (held_setProducer hsame.producer rfl fun he => hq (by rw [he]))
      | slot idx =>
        simp only [At, NosLogContext.setProducer, hsame.ring, hsame.consumer, hsame.readIdx]
      | printed => simp only [At, NosLogContext.setProducer, hsame.printed]
      | counted => rfl
    · simp only [NosLogContext.setProducer, hlen]
      omega
  · simpa only [NosLogContext.setProducer, hsame.printed] using h.printed
  · obtain ⟨hlt, hheld⟩ := h.returned k hk
    refine ⟨?_, fun q hq => ?_⟩
    · simp only [NosLogContext.setProducer, hlen]
      omega
    · by_cases hqp : q = p
      · subst hqp
        rw [hnew] at hq
        obtain rfl := Option.some.inj hq
        exact Nat.lt_irrefl _ hlt
      · rw [held_setProducer hsame.producer rfl hqp] at hq
        exact hheld q hq
  · simpa only [NosLogContext.setProducer, hdropped] using h.dropped
  · simpa only [NosLogContext.setProducer, hsame.consumer, hsame.keepRunning] using h.stopping

theorem Inv.returned_ret (h : s.Inv) (hself : s.held p = some ticket)
    (hother : ∀ q, q ≠ p → s'.held q = s.held q) (hnew : s'.held p = none)
    (hlines : s'.context.lines = s.context.lines) {k : ℕ} (hk : k ∈ s.ret ticket) :
    k < s'.context.lines.length ∧ ∀ q, s'.held q ≠ some k := by
  have hat : s.At (.producer p) ticket := hself
  rw [hlines]
  constructor
  · rcases mem_ret hk with hk | rfl
    · exact (h.returned k hk).1
    · exact h.places.valid _ _ hat
  · intro q hq
    by_cases hqp : q = p
    · rw [hqp, hnew] at hq
      cases hq
    · rw [hother q hqp] at hq
      rcases mem_ret hk with hk | rfl
      · exact (h.returned k hk).2 q hq
      · cases h.places.unique (.producer q) (.producer p) _ hq hat
        exact hqp rfl

theorem Inv.drop (h : s.Inv) (hp : s.context.producer p = .drop)
    (howned : (context.setProducer p .idle).Owned) (hsame : SameRing s.context context)
    (hlines : context.lines = s.context.lines)
    (hdropped : context.droppedCount = u64 (s.context.droppedCount + 1)) :
    Inv { s with
      context := context.setProducer p .idle
      counted := s.counted ++ [s.current p]
      returned := s.ret (s.current p) } := by
  have hself : s.held p = some (s.current p) := by simp [held, hp]
  have hat : s.At (.producer p) (s.current p) := hself
  have hnew : held ⟨context.setProducer p .idle, s.current, s.counted ++ [s.current p],
      s.ret (s.current p)⟩ p = none := by simp [held, NosLogContext.setProducer]
  have hother : ∀ q, q ≠ p → held ⟨context.setProducer p .idle, s.current,
      s.counted ++ [s.current p], s.ret (s.current p)⟩ q = s.held q := fun q hq =>
    held_setProducer hsame.producer rfl hq
  refine ⟨howned, ?_, ?_, ?_, fun k hk => h.returned_ret hself hother hnew hlines hk, ?_, ?_⟩
  · refine (h.places.move (p := .producer p) hat (fun j => ?_) (r := .counted) (fun j => ?_)
      fun q j hq hq' => ?_).congr (fun _ _ => .rfl) fun j => ?_
    · simp only [At, hself, hnew, Option.some.injEq, reduceCtorEq, false_iff, not_and]
      exact fun hj he => hj he.symm
    · simp only [At, List.mem_append, List.mem_singleton, or_comm]
    · cases q with
      | producer q => exact Eq.congr_left (hother q fun he => hq (by rw [he]))
      | slot idx =>
        simp only [At, NosLogContext.setProducer, hsame.ring, hsame.consumer, hsame.readIdx]
      | printed => simp only [At, NosLogContext.setProducer, hsame.printed]
      | counted => exact absurd rfl hq'
    · simp only [NosLogContext.setProducer, hlines]
  · simpa only [NosLogContext.setProducer, hsame.printed] using h.printed
  · refine List.nodup_append.mpr ⟨h.counted, List.nodup_singleton _, ?_⟩
    rintro k hk _ hk' rfl
    obtain rfl := List.mem_singleton.mp hk'
    cases h.places.unique .counted (.producer p) _ hk hat
  · simp only [NosLogContext.setProducer, hdropped, h.dropped, List.length_append,
      List.length_singleton]
    exact Nat.mod_add_mod ..
  · simpa only [NosLogContext.setProducer, hsame.consumer, hsame.keepRunning] using h.stopping

theorem Inv.goOn (h : s.Inv) (howned : (context.setProducer p pc).Owned)
    (hring : ∀ idx, context.ring idx = s.context.ring idx ∨
      (context.ring idx).ready ≠ .ready ∧ (s.context.ring idx).ready ≠ .ready)
    (hread : context.readIdx = s.context.readIdx)
    (hconsumer : context.consumer = s.context.consumer)
    (hprinted : context.printed = s.context.printed)
    (hrunning : context.keepRunning = s.context.keepRunning)
    (hproducer : context.producer = s.context.producer) (hlines : context.lines = s.context.lines)
    (hdropped : context.droppedCount = s.context.droppedCount)
    (hcurrent : ∀ q, q ≠ p → current q = s.current q)
    (hheld : held { s with context := context.setProducer p pc, current := current } p = s.held p) :
    Inv { s with context := context.setProducer p pc, current := current } := by
  refine h.congr howned ?_ hlines hprinted rfl hdropped rfl ?_
  · refine at_congr (fun q => ?_) hring hconsumer hread hprinted rfl
    by_cases hq : q = p
    · rw [hq, hheld]
    · exact held_setProducer hproducer (hcurrent q hq) hq
  · simpa only [NosLogContext.setProducer, hconsumer, hrunning] using h.stopping

theorem Inv.store (h : s.Inv) (hp : s.context.producer p = .store idx ticket)
    (howned : ((s.context.setSlot idx { s.context.ring idx with ready := .ready }).setProducer p
      .idle).Owned) :
    Inv { s with
      context := (s.context.setSlot idx
        { s.context.ring idx with ready := .ready }).setProducer p .idle
      returned := s.ret ticket } := by
  have hself : s.held p = some ticket := by simp [held, hp]
  have hat : s.At (.producer p) ticket := hself
  obtain ⟨hwriting, hticket⟩ := h.owned.writing p idx ticket (by rw [hp]; rfl)
  have hother : ∀ q, q ≠ p → held ⟨(s.context.setSlot idx
      { s.context.ring idx with ready := .ready }).setProducer p .idle, s.current, s.counted,
      s.ret ticket⟩ q = s.held q := fun q hq => held_setProducer rfl rfl hq
  have hnew : held ⟨(s.context.setSlot idx
      { s.context.ring idx with ready := .ready }).setProducer p .idle, s.current, s.counted,
      s.ret ticket⟩ p = none := by simp [held, NosLogContext.setProducer]
  have hclear : s.context.consumer = .clear → idx ≠ s.context.readIdx % logBufferSize := by
    rintro hc rfl
    have hready := h.owned.reading (.inr hc)
    rw [NosLogContext.readSlot, hwriting] at hready
    cases hready
  refine ⟨howned, ?_, h.printed, h.counted, fun k hk => h.returned_ret hself hother hnew rfl hk,
    h.dropped, h.stopping⟩
  refine h.places.move (p := .producer p) hat (fun j => ?_) (r := .slot idx) (fun j => ?_)
    fun q j hq hq' => ?_
  · simp only [At, hself, hnew, Option.some.injEq, reduceCtorEq, false_iff, not_and]
    exact fun hj he => hj he.symm
  · simp only [At, hwriting, reduceCtorEq, false_and, or_false]
    simp only [NosLogContext.setProducer, NosLogContext.setSlot, Function.update_self, hticket,
      true_and]
    exact ⟨fun hj => hj.1.symm, fun hj => ⟨hj.symm, hclear⟩⟩
  · cases q with
    | producer q => exact Eq.congr_left (hother q fun he => hq (by rw [he]))
    | slot i =>
      have hi : i ≠ idx := fun he => hq' (by rw [he])
      simp only [At, NosLogContext.setProducer, NosLogContext.setSlot, Function.update_of_ne hi]
    | printed => rfl
    | counted => rfl

theorem Inv.produce (h : s.Inv) (hs : s.step (.produce p) = some s') : s'.Inv := by
  obtain ⟨context, hcontext, rfl⟩ := Option.map_eq_some_iff.mp hs
  have howned := h.owned.produce hcontext
  simp only [NosLogContext.step, NosLogContext.produce] at hcontext
  split at hcontext
  · cases hcontext
  · rename_i line hp
    obtain rfl := Option.some.inj hcontext
    simp only [hp]
    exact h.fetchAdd hp howned ⟨rfl, rfl, rfl, rfl, rfl, rfl⟩ rfl rfl rfl
  · rename_i idx ticket line hp
    simp only [hp]
    have hcurrent : ∀ q, q ≠ p → Function.update s.current p ticket q = s.current q :=
      fun q hq => Function.update_of_ne hq ..
    split at hcontext <;> obtain rfl := Option.some.inj hcontext
    · rename_i hempty
      refine h.goOn howned (fun i => ?_) rfl rfl rfl rfl rfl rfl rfl hcurrent ?_
      · by_cases hi : i = idx
        · subst hi
          simp [NosLogContext.setSlot, hempty]
        · exact .inl (Function.update_of_ne hi ..)
      · simp [held, NosLogContext.setProducer, hp]
    · refine h.goOn howned (fun i => .inl rfl) rfl rfl rfl rfl rfl rfl rfl hcurrent ?_
      simp [held, NosLogContext.setProducer, hp]
  · rename_i hp
    obtain rfl := Option.some.inj hcontext
    simp only [hp]
    exact h.drop hp howned ⟨rfl, rfl, rfl, rfl, rfl, rfl⟩ rfl rfl
  · rename_i idx ticket line hp
    obtain rfl := Option.some.inj hcontext
    simp only [hp]
    have hwriting := (h.owned.writing p idx ticket (by rw [hp]; rfl)).1
    refine h.goOn howned (fun i => ?_) rfl rfl rfl rfl rfl rfl rfl (fun _ _ => rfl) ?_
    · by_cases hi : i = idx
      · subst hi
        simp [NosLogContext.setSlot, hwriting]
      · exact .inl (Function.update_of_ne hi ..)
    · simp [held, NosLogContext.setProducer, hp]
  · rename_i idx ticket hp
    obtain rfl := Option.some.inj hcontext
    simp only [hp]
    exact h.store hp howned

end Produce

theorem Inv.print (h : s.Inv) (hc : s.context.consumer = .print) {out : PrintedLine}
    (howned : ({ s.context with
      printed := s.context.printed ++ [(s.context.readSlot.ticket, out)]
      consumer := .clear } : NosLogContext P).Owned) :
    Inv { s with context := { s.context with
      printed := s.context.printed ++ [(s.context.readSlot.ticket, out)]
      consumer := .clear } } := by
  have hready := h.owned.reading (.inl hc)
  have hat : s.At (.slot (s.context.readIdx % logBufferSize)) s.context.readSlot.ticket := by
    refine ⟨hready, rfl, fun hclear => ?_⟩
    rw [hc] at hclear
    cases hclear
  refine ⟨howned, ?_, ?_, h.counted, h.returned, h.dropped, fun hstop => ?_⟩
  · refine h.places.move hat (fun j => ?_) (r := .printed) (fun j => ?_) fun q j hq hq' => ?_
    · refine iff_of_false (fun hat' => hat'.2.2 rfl rfl) ?_
      rintro ⟨hne, -, he, -⟩
      exact hne he.symm
    · simp only [At, List.map_append, List.map_cons, List.map_nil, List.mem_append,
        List.mem_singleton, or_comm]
    · cases q with
      | producer q => rfl
      | slot i =>
        have hi : i ≠ s.context.readIdx % logBufferSize := fun he => hq (by rw [he])
        simp only [At, hc, hi, ne_eq, not_false_eq_true, implies_true]
      | printed => exact absurd rfl hq'
      | counted => rfl
  · rw [List.map_append]
    refine List.nodup_append.mpr ⟨h.printed, List.nodup_singleton _, ?_⟩
    rintro k hk _ hk' rfl
    obtain rfl := List.mem_singleton.mp hk'
    cases h.places.unique .printed (.slot _) _ hk hat
  · rcases hstop with hstop | hstop <;> cases hstop

theorem Inv.clear (h : s.Inv) (hc : s.context.consumer = .clear)
    (hcontext : s.context.consume = some context) : Inv { s with context := context } := by
  have howned := h.owned.consume hcontext
  simp only [NosLogContext.consume, hc, Option.some.injEq] at hcontext
  subst hcontext
  refine h.congr howned (fun x k => ?_) rfl rfl rfl rfl rfl fun hstop => ?_
  · cases x with
    | producer q => rfl
    | slot i =>
      by_cases hi : i = s.context.readIdx % logBufferSize
      · subst hi
        refine iff_of_false ?_ fun hat => hat.2.2 hc rfl
        rintro ⟨hready, -⟩
        simp only [Function.update_self] at hready
        cases hready
      · simp only [At, Function.update_of_ne hi, hc, hi, ne_eq, not_false_eq_true, implies_true,
          reduceCtorEq, false_implies]
    | printed => rfl
    | counted => rfl
  · rcases hstop with hstop | hstop <;> cases hstop

theorem Inv.consume (h : s.Inv) (hcontext : s.context.consume = some context) :
    Inv { s with context := context } := by
  have howned := h.owned.consume hcontext
  have hmove : ∀ pc : LogConsumerPc, s.context.consumer ≠ .clear → pc ≠ .clear →
      (pc = .loadLast ∨ pc = .stopped → s.context.keepRunning = false) →
      ({ s.context with consumer := pc } : NosLogContext P).Owned →
      Inv { s with context := { s.context with consumer := pc } } := by
    intro pc hold hnew hstop howned
    refine h.congr howned (fun x k => ?_) rfl rfl rfl rfl rfl hstop
    cases x with
    | producer q => rfl
    | slot i => simp only [At, hold, hnew, false_implies]
    | printed => rfl
    | counted => rfl
  have hcases := hcontext
  unfold NosLogContext.consume at hcases
  split at hcases
  · rename_i hc
    obtain rfl := Option.some.inj hcases
    refine hmove _ (by rw [hc]; exact LogConsumerPc.noConfusion) ?_ ?_ howned
    · split <;> exact LogConsumerPc.noConfusion
    · intro hstop
      split at hstop
      · rcases hstop with hstop | hstop <;> cases hstop
      · rename_i hrun
        simpa using hrun
  · rename_i hc
    obtain rfl := Option.some.inj hcases
    refine hmove _ (by rw [hc]; exact LogConsumerPc.noConfusion) ?_ (fun _ => h.stopping (.inl hc))
      howned
    split <;> exact LogConsumerPc.noConfusion
  · rename_i hc
    obtain rfl := Option.some.inj hcases
    refine hmove _ (by rw [hc]; exact LogConsumerPc.noConfusion) ?_ ?_ howned
    · split <;> exact LogConsumerPc.noConfusion
    · split <;> rintro (hstop | hstop) <;> cases hstop
  · obtain rfl := Option.some.inj hcases
    exact h.print ‹_› howned
  · exact h.clear ‹_› hcontext
  · cases hcases

theorem Inv.step [DecidableEq P] (h : s.Inv) (hs : s.step a = some s') : s'.Inv := by
  cases a with
  | produce p => exact h.produce hs
  | consume =>
    simp only [LogAccount.step, Option.map_eq_some_iff] at hs
    obtain ⟨context, hcontext, rfl⟩ := hs
    exact h.consume hcontext
  | log | setFilterLevel | setCompLevel | setCompInfo | deinit =>
    simp only [LogAccount.step, Option.map_eq_some_iff] at hs
    obtain ⟨context, hcontext, rfl⟩ := hs
    exact h.sameSlots (NosLogContext.sameSlots_step (by rintro _ ⟨⟩) (by rintro ⟨⟩) hcontext)

theorem printed_produce [DecidableEq P] {context context' : NosLogContext P}
    (h : context.produce p = some context') :
    context'.printed = context.printed ∧ context'.consumer = context.consumer := by
  unfold NosLogContext.produce at h
  split at h
  · cases h
  · obtain rfl := Option.some.inj h
    exact ⟨rfl, rfl⟩
  · split at h <;> obtain rfl := Option.some.inj h <;> exact ⟨rfl, rfl⟩
  · obtain rfl := Option.some.inj h
    exact ⟨rfl, rfl⟩
  · obtain rfl := Option.some.inj h
    exact ⟨rfl, rfl⟩
  · obtain rfl := Option.some.inj h
    exact ⟨rfl, rfl⟩

theorem step_produce [DecidableEq P] (hs : s.step (.produce p) = some s') :
    s'.context.printed = s.context.printed ∧ s'.context.consumer = s.context.consumer ∧
      s.counted ⊆ s'.counted ∧ (s.context.keepRunning = false → s'.returned = s.returned) := by
  obtain ⟨context, hcontext, rfl⟩ := Option.map_eq_some_iff.mp hs
  obtain ⟨hprinted, hconsumer⟩ := printed_produce hcontext
  dsimp only
  split
  · exact ⟨hprinted, hconsumer, List.Subset.refl _, fun _ => rfl⟩
  · exact ⟨hprinted, hconsumer, List.subset_append_left _ _, fun hrun => by simp [ret, hrun]⟩
  · exact ⟨hprinted, hconsumer, List.Subset.refl _, fun hrun => by simp [ret, hrun]⟩
  · exact ⟨hprinted, hconsumer, List.Subset.refl _, fun _ => rfl⟩

/-- Once the consumer has ended, no further line of a returned call gets into a slot. -/
theorem Inv.noneLeft_produce [DecidableEq P] (h : s.Inv) (hstop : s.context.consumer = .stopped)
    (hnone : s.NoneLeft) (hs : s.step (.produce p) = some s') : s'.NoneLeft := by
  obtain ⟨hprinted, hconsumer, hcounted, hreturned⟩ := step_produce hs
  have h' := h.produce hs
  intro idx hready hmem
  rw [hreturned (h.stopping (.inr hstop))] at hmem
  have hat : s'.At (.slot idx) (s'.context.ring idx).ticket := by
    refine ⟨hready, rfl, fun hc => ?_⟩
    rw [hconsumer, hstop] at hc
    cases hc
  obtain ⟨hlt, hheld⟩ := h.returned _ hmem
  obtain ⟨place, hplace⟩ := h.places.placed _ hlt
  cases place with
  | producer q => exact hheld q hplace
  | slot i =>
    obtain ⟨hold, hticket, -⟩ := hplace
    rw [← hticket] at hmem
    exact hnone i hold hmem
  | printed =>
    have hprinted' : s'.At .printed (s'.context.ring idx).ticket := by
      simpa only [At, hprinted] using hplace
    cases h'.places.unique _ _ _ hat hprinted'
  | counted =>
    have hcounted' : s'.At .counted (s'.context.ring idx).ticket := hcounted hplace
    cases h'.places.unique _ _ _ hat hcounted'

/-- From a state that conserves the lines, a step does exactly if it stops at an empty log. -/
theorem Inv.conserved_step_iff [DecidableEq P] (h : s.Inv) (hcons : s.Conserved)
    (hs : s.step a = some s') : s'.Conserved ↔ s.StopsEmpty a := by
  rw [(h.step hs).conserved_iff]
  have hnone := h.conserved_iff.mp hcons
  cases a with
  | produce p =>
    refine iff_of_true (fun hstop => ?_) trivial
    rw [(step_produce hs).2.1] at hstop
    exact h.noneLeft_produce hstop (hnone hstop) hs
  | consume =>
    simp only [LogAccount.step, NosLogContext.step, Option.map_eq_some_iff] at hs
    obtain ⟨context, hcontext, rfl⟩ := hs
    unfold NosLogContext.consume at hcontext
    split at hcontext
    · rename_i hc
      obtain rfl := Option.some.inj hcontext
      refine iff_of_true (fun hstop => ?_) fun hlast => ?_
      · dsimp only at hstop
        split at hstop <;> cases hstop
      · rw [hc] at hlast
        cases hlast
    · rename_i hc
      obtain rfl := Option.some.inj hcontext
      by_cases hready : s.context.readSlot.ready = .ready
      · refine iff_of_true (fun hstop => ?_) fun _ hnot => absurd hready hnot
        simp only [hready, if_true] at hstop
        cases hstop
      · simp only [hready, if_false, forall_const, StopsEmpty, hc, ne_eq, not_false_eq_true]
        rfl
    · rename_i hc
      obtain rfl := Option.some.inj hcontext
      refine iff_of_true (fun hstop => ?_) fun hlast => ?_
      · dsimp only at hstop
        split at hstop <;> cases hstop
      · rw [hc] at hlast
        cases hlast
    · rename_i hc
      obtain rfl := Option.some.inj hcontext
      refine iff_of_true (fun hstop => by cases hstop) fun hlast => ?_
      rw [hc] at hlast
      cases hlast
    · rename_i hc
      obtain rfl := Option.some.inj hcontext
      refine iff_of_true (fun hstop => by cases hstop) fun hlast => ?_
      rw [hc] at hlast
      cases hlast
    · cases hcontext
  | log | setFilterLevel | setCompLevel | setCompInfo | deinit =>
    simp only [LogAccount.step, Option.map_eq_some_iff] at hs
    obtain ⟨context, hcontext, rfl⟩ := hs
    have hsame := NosLogContext.sameSlots_step (by rintro _ ⟨⟩) (by rintro ⟨⟩) hcontext
    refine iff_of_true (fun hstop => ?_) trivial
    rw [hsame.consumer] at hstop
    simpa only [NoneLeft, hsame.ring] using hnone hstop

/-- Along a run, what `nos_log_deinit` waits for leaves every returned call printed or counted if
and only if the consumer ends with no such line in a slot. -/
theorem conserved_iff_stopsEmpty [DecidableEq P] (actions : List (LogAction P)) :
    Always step Conserved (init : LogAccount P) actions ↔
      Guarded step StopsEmpty (init : LogAccount P) actions :=
  always_iff_guarded (I := fun s => s.Inv ∧ s.Conserved) (fun _ h => h.2)
    (fun _ _ _ h hs hc => ⟨h.1.step hs, hc⟩) (fun _ _ _ h hs => h.1.conserved_step_iff h.2 hs)
    ⟨inv_init, fun hstop => by cases hstop⟩

/-- The second producer has published its line while the first one still writes its own, and the
consumer ends at the slot of the first. -/
def shutdownDuringWrite : List (LogAction Bool) :=
  [.log false NosLogContext.someLine, .produce false, .produce false,
    .log true NosLogContext.someLine, .produce true, .produce true, .produce true, .produce true,
    .deinit, .consume, .consume]

/-- The line of the second producer is neither printed nor counted. -/
theorem not_conserved_shutdownDuringWrite :
    ¬ Always step Conserved (init : LogAccount Bool) shutdownDuringWrite := by
  obtain ⟨s, hs, hstop, hmem, hzero⟩ : ∃ s, exec step (init : LogAccount Bool)
      shutdownDuringWrite = some s ∧ s.context.consumer = .stopped ∧ 1 ∈ s.returned ∧
        s.accounted 1 = 0 := ⟨_, rfl, rfl, by decide, by decide⟩
  intro h
  have hone := (h.last hs hstop).2 1 hmem
  rw [hzero] at hone
  cases hone

end LogAccount

end GeminiNOS

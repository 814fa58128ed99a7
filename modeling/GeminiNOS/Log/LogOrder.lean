import GeminiNOS.Foundations.Ring
import GeminiNOS.Log.LogBuffer

/-! # The order of the log

The tickets from the read index on, one round of them, have slots of their own. As
long as no producer claims a slot for a ticket of a later round, each of these slots
is that of its ticket, and a ticket without a line has a producer that will publish
one.
-/

namespace GeminiNOS

open Foundations Run Ring

theorem LogPc.ticket_of_claimed {pc : LogPc} {t : ℕ} (h : pc.claimed = some t) :
    pc.ticket = some t := by
  cases pc <;> first | exact h | cases h

namespace NosLogContext

variable {P : Type*} {s s' : NosLogContext P} {p q : P} {pc : LogPc} {line : LogLine}
  {idx t k : ℕ}

def PcSound (s : NosLogContext P) : LogPc → Prop
  | .idle | .fetchAdd _ | .drop => True
  | .cas idx t line => idx = t % logBufferSize ∧ s.lines[t]? = some line
  | .write idx t line => idx = t % logBufferSize ∧ s.lines[t]? = some line ∧
      (s.ring idx).ready = .writing ∧ (s.ring idx).ticket = t
  | .store idx t => idx = t % logBufferSize ∧
      s.lines[t]?.map LogLine.cut = some (s.ring idx).line ∧
      (s.ring idx).ready = .writing ∧ (s.ring idx).ticket = t

def SlotSound (s : NosLogContext P) (t : ℕ) : Prop :=
  match (s.ring (t % logBufferSize)).ready with
  | .empty => t < s.lines.length → ∃ p, (s.producer p).ticket = some t
  | .writing => ∃ p, (s.producer p).claimed = some t
  | .ready => (s.ring (t % logBufferSize)).ticket = t ∧
      s.lines[t]?.map LogLine.cut = some (s.ring (t % logBufferSize)).line ∧
      ∀ p, (s.producer p).ticket ≠ some t

def printedCount (s : NosLogContext P) : ℕ := if s.consumer = .clear then s.read + 1 else s.read

/-- No two producers have the same ticket, and each slot of the current round is that of its
ticket. -/
structure Sound (s : NosLogContext P) : Prop where
  readIdx : s.readIdx = u32 s.read
  writeIdx : s.writeIdx = u32 s.lines.length
  read_le : s.read ≤ s.lines.length
  ticket : ∀ p t, (s.producer p).ticket = some t → s.read ≤ t ∧ t < s.lines.length
  claimed : ∀ p t, (s.producer p).claimed = some t → t < s.read + logBufferSize
  distinct : ∀ p q t, (s.producer p).ticket = some t → (s.producer q).ticket = some t → p = q
  pcs : ∀ p, s.PcSound (s.producer p)
  window : ∀ t, s.read ≤ t → t < s.read + logBufferSize → s.SlotSound t
  beyond : ∀ t, s.read + logBufferSize ≤ t → t < s.lines.length →
    ∃ p, (s.producer p).ticket = some t
  consumer : s.consumer = .print ∨ s.consumer = .clear → s.readSlot.ready = .ready
  printed : s.printed.map Prod.fst = List.range s.printedCount
  prints : ∀ out ∈ s.printed, s.Prints out

theorem u32_mod (n : ℕ) : u32 n % logBufferSize = n % logBufferSize :=
  Nat.mod_mod_of_dvd n (by decide)

theorem u32_succ (n : ℕ) : u32 (u32 n + 1) = u32 (n + 1) := Nat.mod_add_mod n _ 1

theorem Sound.readSlot_eq (h : s.Sound) : s.readSlot = s.ring (s.read % logBufferSize) := by
  rw [readSlot, h.readIdx, u32_mod]

theorem Sound.linesInOrder (h : s.Sound) : s.LinesInOrder where
  prints := h.prints
  inOrder := by
    rw [h.printed]
    exact List.pairwise_lt_range
  progress := by
    rintro ⟨idx, hidx, hready⟩ hnone
    obtain ⟨t, hle, hlt, rfl⟩ := exists_position hidx s.read
    have hslot := h.window t hle hlt
    rw [SlotSound, hready] at hslot
    have htaken : t < s.lines.length := by
      obtain ⟨line, hline, -⟩ := Option.map_eq_some_iff.mp hslot.2.1
      exact (List.getElem?_eq_some_iff.mp hline).1
    have hread := h.window s.read le_rfl (Nat.lt_add_of_pos_right (by decide))
    rw [SlotSound] at hread
    rw [h.readSlot_eq]
    split at hread
    · obtain ⟨p, hp⟩ := hread (hle.trans_lt htaken)
      rw [hnone p] at hp
      cases hp
    · obtain ⟨p, hp⟩ := hread
      cases (LogPc.ticket_of_claimed hp).symm.trans (hnone p)
    · assumption

theorem PcSound.frame (h : s.PcSound pc)
    (hlines : ∀ (k : ℕ) (line : LogLine), s.lines[k]? = some line → s'.lines[k]? = some line)
    (hslot : ∀ k, pc.claimed = some k →
      s'.ring (k % logBufferSize) = s.ring (k % logBufferSize)) : s'.PcSound pc := by
  cases pc with
  | idle | fetchAdd | drop => trivial
  | cas idx t line => exact ⟨h.1, hlines t line h.2⟩
  | write idx t line =>
    obtain ⟨rfl, hline, hready⟩ := h
    refine ⟨rfl, hlines t line hline, ?_⟩
    rw [hslot t rfl]
    exact hready
  | store idx t =>
    obtain ⟨rfl, hcut, hready⟩ := h
    obtain ⟨line, hline, hcut⟩ := Option.map_eq_some_iff.mp hcut
    refine ⟨rfl, ?_, ?_⟩
    · rw [hlines t line hline, hslot t rfl, Option.map_some, hcut]
    · rw [hslot t rfl]
      exact hready

theorem SlotSound.frame (h : s.SlotSound k) (hlines : s'.lines[k]? = s.lines[k]?)
    (hslot : s'.ring (k % logBufferSize) = s.ring (k % logBufferSize))
    (hticket : ∀ p, (s'.producer p).ticket = some k ↔ (s.producer p).ticket = some k)
    (hclaimed : ∀ p, (s'.producer p).claimed = some k ↔ (s.producer p).claimed = some k) :
    s'.SlotSound k := by
  have hlen : k < s'.lines.length ↔ k < s.lines.length := by
    rw [← not_iff_not, Nat.not_lt, Nat.not_lt, ← List.getElem?_eq_none_iff,
      ← List.getElem?_eq_none_iff, hlines]
  simpa only [SlotSound, hslot, hlines, hlen, hticket, hclaimed, ne_eq] using h

theorem slot_ne {i j : ℕ} (hi : s.read ≤ i) (hin : i < s.read + logBufferSize) (hj : s.read ≤ j)
    (hjn : j < s.read + logBufferSize) (hne : i ≠ j) : i % logBufferSize ≠ j % logBufferSize :=
  fun he => hne (slot_inj hi hin hj hjn he)

/-- A producer that comes to its slot in time finds it empty. -/
theorem Sound.empty_of_cas (h : s.Sound) (hp : s.producer p = .cas idx t line)
    (hlt : t < s.read + logBufferSize) : (s.ring (t % logBufferSize)).ready = .empty := by
  have hmine : (s.producer p).ticket = some t := by rw [hp]; rfl
  have hslot := h.window t (h.ticket p t hmine).1 hlt
  rw [SlotSound] at hslot
  split at hslot
  · assumption
  · obtain ⟨q, hq⟩ := hslot
    obtain rfl := h.distinct q p t (LogPc.ticket_of_claimed hq) hmine
    rw [hp] at hq
    cases hq
  · exact absurd hmine (hslot.2.2 p)

section Producer

variable [DecidableEq P]

theorem producer_setProducer :
    (s.setProducer p pc).producer q = if q = p then pc else s.producer q :=
  Function.update_apply ..

theorem Sound.setProducer (h : s.Sound) (hold : (s.producer p).ticket = none)
    (hnew : pc.ticket = none) (hpc : s.PcSound pc) : (s.setProducer p pc).Sound := by
  have hticket : ∀ q, ((s.setProducer p pc).producer q).ticket = (s.producer q).ticket := by
    intro q
    rw [producer_setProducer]
    split
    · subst q
      rw [hnew, hold]
    · rfl
  have hunclaimed : ∀ pc : LogPc, pc.ticket = none → pc.claimed = none := by
    rintro (_ | _ | _ | _ | _ | _) <;> simp [LogPc.ticket, LogPc.claimed]
  have hclaimed : ∀ q, ((s.setProducer p pc).producer q).claimed = (s.producer q).claimed := by
    intro q
    rw [producer_setProducer]
    split
    · subst q
      rw [hunclaimed pc hnew, hunclaimed _ hold]
    · rfl
  constructor
  · exact h.readIdx
  · exact h.writeIdx
  · exact h.read_le
  · exact fun q t hq => h.ticket q t (hticket q ▸ hq)
  · exact fun q t hq => h.claimed q t (hclaimed q ▸ hq)
  · exact fun q r t hq hr => h.distinct q r t (hticket q ▸ hq) (hticket r ▸ hr)
  · intro q
    rw [producer_setProducer]
    split
    · exact hpc.frame (fun _ _ hline => hline) fun _ _ => rfl
    · exact (h.pcs q).frame (fun _ _ hline => hline) fun _ _ => rfl
  · intro k hle hlt
    exact (h.window k hle hlt).frame rfl rfl (fun q => by rw [hticket]) fun q => by rw [hclaimed]
  · intro k hle hlt
    obtain ⟨q, hq⟩ := h.beyond k hle hlt
    exact ⟨q, (hticket q).trans hq⟩
  · exact h.consumer
  · exact h.printed
  · exact h.prints

theorem ticket_of_setProducer (hp : (s.producer p).ticket = some t)
    (hticket : pc.ticket = some t ∨ pc.ticket = none)
    (hq : ((s.setProducer p pc).producer q).ticket = some k) :
    (s.producer q).ticket = some k := by
  rw [producer_setProducer] at hq
  split at hq
  · subst q
    rcases hticket with ht | ht
    · exact hp.trans (ht.symm.trans hq)
    · rw [ht] at hq
      cases hq
  · exact hq

theorem ticket_setProducer_of_ne (hp : (s.producer p).ticket = some t) (hne : k ≠ t)
    (hq : (s.producer q).ticket = some k) :
    ((s.setProducer p pc).producer q).ticket = some k := by
  rw [producer_setProducer]
  split
  · subst q
    exact absurd (Option.some.inj (hq.symm.trans hp)) hne
  · exact hq

theorem claimed_setProducer_of_ne (hp : (s.producer p).ticket = some t)
    (hticket : pc.ticket = some t ∨ pc.ticket = none) (hne : k ≠ t) :
    ((s.setProducer p pc).producer q).claimed = some k ↔ (s.producer q).claimed = some k := by
  rw [producer_setProducer]
  split
  · subst q
    constructor
    · intro hq
      rcases hticket with ht | ht <;> cases ht.symm.trans (LogPc.ticket_of_claimed hq)
      exact absurd rfl hne
    · intro hq
      cases hp.symm.trans (LogPc.ticket_of_claimed hq)
      exact absurd rfl hne
  · rfl

omit [DecidableEq P] in
/-- The slots of the other tickets of the round stay as they are. -/
theorem Sound.ring_setSlot (h : s.Sound) (hp : (s.producer p).ticket = some t)
    (hlt : t < s.read + logBufferSize) {entry : NosLogEntry} (hne : k ≠ t) (hk : s.read ≤ k)
    (hkn : k < s.read + logBufferSize) :
    (s.setSlot (t % logBufferSize) entry).ring (k % logBufferSize) =
      s.ring (k % logBufferSize) :=
  Function.update_of_ne (slot_ne hk hkn (h.ticket p t hp).1 hlt hne) ..

theorem Sound.pcs_advance (h : s.Sound) (hp : (s.producer p).ticket = some t)
    (hlt : t < s.read + logBufferSize) {entry : NosLogEntry}
    (hpc : ((s.setSlot (t % logBufferSize) entry).setProducer p pc).PcSound pc) (q : P) :
    ((s.setSlot (t % logBufferSize) entry).setProducer p pc).PcSound
      (((s.setSlot (t % logBufferSize) entry).setProducer p pc).producer q) := by
  rw [producer_setProducer]
  split
  · exact hpc
  · refine (h.pcs q).frame (fun _ _ hline => hline) fun k hq => ?_
    have hq' := LogPc.ticket_of_claimed hq
    refine h.ring_setSlot hp hlt ?_ (h.ticket q k hq').1 (h.claimed q k hq)
    rintro rfl
    exact absurd (h.distinct q p k hq' hp) ‹_›

/-- A producer with a ticket of the current round works on its slot. -/
theorem Sound.advance (h : s.Sound) (hp : (s.producer p).ticket = some t)
    (hlt : t < s.read + logBufferSize) {entry : NosLogEntry}
    (hbusy : (s.ring (t % logBufferSize)).ready ≠ .ready)
    (hticket : pc.ticket = some t ∨ pc.ticket = none)
    (hpc : ((s.setSlot (t % logBufferSize) entry).setProducer p pc).PcSound pc)
    (hslot : ((s.setSlot (t % logBufferSize) entry).setProducer p pc).SlotSound t) :
    ((s.setSlot (t % logBufferSize) entry).setProducer p pc).Sound := by
  have hback : ∀ q k, ((s.setProducer p pc).producer q).ticket = some k →
      (s.producer q).ticket = some k := fun q k => ticket_of_setProducer hp hticket
  have hforth : ∀ q k, k ≠ t → (s.producer q).ticket = some k →
      ((s.setProducer p pc).producer q).ticket = some k := fun q k =>
    ticket_setProducer_of_ne hp
  have hclaims : ∀ q k, k ≠ t → (((s.setProducer p pc).producer q).claimed = some k ↔
      (s.producer q).claimed = some k) := fun q k => claimed_setProducer_of_ne hp hticket
  constructor
  · exact h.readIdx
  · exact h.writeIdx
  · exact h.read_le
  · exact fun q k hq => h.ticket q k (hback q k hq)
  · intro q k hq
    rcases eq_or_ne k t with rfl | hne
    · exact hlt
    · exact h.claimed q k ((hclaims q k hne).mp hq)
  · exact fun q r k hq hr => h.distinct q r k (hback q k hq) (hback r k hr)
  · exact h.pcs_advance hp hlt hpc
  · intro k hle hltk
    rcases eq_or_ne k t with rfl | hne
    · exact hslot
    · exact (h.window k hle hltk).frame rfl (h.ring_setSlot hp hlt hne hle hltk)
        (fun q => ⟨hback q k, hforth q k hne⟩) fun q => hclaims q k hne
  · intro k hle hltk
    obtain ⟨q, hq⟩ := h.beyond k hle hltk
    exact ⟨q, hforth q k (hlt.trans_le hle).ne' hq⟩
  · intro hc
    have hready := h.consumer hc
    rw [h.readSlot_eq] at hready
    have hne : s.read ≠ t := by
      rintro rfl
      exact hbusy hready
    change (Function.update s.ring _ entry (s.readIdx % logBufferSize)).ready = .ready
    have hsame : (s.setSlot (t % logBufferSize) entry).ring (s.read % logBufferSize) =
        s.ring (s.read % logBufferSize) :=
      h.ring_setSlot hp hlt hne le_rfl (Nat.lt_add_of_pos_right (by decide))
    rw [h.readIdx, u32_mod]
    exact (congrArg NosLogEntry.ready hsame).trans hready
  · exact h.printed
  · exact h.prints

/-- The log when a producer has taken the next ticket. -/
def taken (s : NosLogContext P) (p : P) (line : LogLine) : NosLogContext P :=
  { s with
    writeIdx := u32 (s.writeIdx + 1)
    lines := s.lines ++ [line] }.setProducer p
      (.cas (s.writeIdx % logBufferSize) s.lines.length line)

theorem length_taken : (s.taken p line).lines.length = s.lines.length + 1 :=
  List.length_append

theorem getElem?_taken_of_ne (hne : k ≠ s.lines.length) :
    (s.taken p line).lines[k]? = s.lines[k]? := by
  change (s.lines ++ [line])[k]? = _
  rcases Nat.lt_or_gt_of_ne hne with hk | hk
  · exact List.getElem?_append_left hk
  · rw [List.getElem?_eq_none (by simp; omega), List.getElem?_eq_none (by omega)]

theorem getElem?_taken {l : LogLine} (hl : s.lines[k]? = some l) :
    (s.taken p line).lines[k]? = some l := by
  rw [getElem?_taken_of_ne (List.getElem?_eq_some_iff.mp hl).1.ne, hl]

theorem ticket_taken (hp : s.producer p = .fetchAdd line) :
    ((s.taken p line).producer q).ticket = some k ↔
      (q = p ∧ k = s.lines.length) ∨ (s.producer q).ticket = some k := by
  rw [taken, producer_setProducer]
  split
  · subst q
    simp [hp, LogPc.ticket, eq_comm]
  · simp [*]

theorem claimed_taken (hp : s.producer p = .fetchAdd line) :
    ((s.taken p line).producer q).claimed = some k ↔ (s.producer q).claimed = some k := by
  rw [taken, producer_setProducer]
  split
  · subst q
    simp [hp, LogPc.claimed]
  · rfl

omit [DecidableEq P] in
/-- The slot of the next ticket is empty, if it is one of the current round. -/
theorem Sound.empty_next (h : s.Sound) (hlt : s.lines.length < s.read + logBufferSize) :
    (s.ring (s.lines.length % logBufferSize)).ready = .empty := by
  have hslot := h.window _ h.read_le hlt
  rw [SlotSound] at hslot
  split at hslot
  · assumption
  · obtain ⟨q, hq⟩ := hslot
    exact absurd (h.ticket q _ (LogPc.ticket_of_claimed hq)).2 (Nat.lt_irrefl _)
  · simp at hslot

theorem Sound.window_taken (h : s.Sound) (hp : s.producer p = .fetchAdd line) (hle : s.read ≤ k)
    (hlt : k < s.read + logBufferSize) : (s.taken p line).SlotSound k := by
  rcases eq_or_ne k s.lines.length with rfl | hne
  · have hempty : ((s.taken p line).ring (s.lines.length % logBufferSize)).ready = .empty :=
      h.empty_next hlt
    rw [SlotSound, hempty]
    exact fun _ => ⟨p, (ticket_taken hp).mpr (Or.inl ⟨rfl, rfl⟩)⟩
  · refine (h.window k hle hlt).frame (getElem?_taken_of_ne hne) rfl (fun q => ?_)
      fun q => claimed_taken hp
    rw [ticket_taken hp]
    simp [hne]

theorem Sound.fetchAdd (h : s.Sound) (hp : s.producer p = .fetchAdd line) :
    (s.taken p line).Sound := by
  constructor
  · exact h.readIdx
  · rw [length_taken]
    exact (congrArg (fun n => u32 (n + 1)) h.writeIdx).trans (u32_succ _)
  · rw [length_taken]
    exact h.read_le.trans (Nat.le_succ _)
  · intro q k hq
    rw [length_taken]
    rcases (ticket_taken hp).mp hq with ⟨-, rfl⟩ | hq
    · exact ⟨h.read_le, Nat.lt_succ_self _⟩
    · exact (h.ticket q k hq).imp_right Nat.lt_succ_of_lt
  · exact fun q k hq => h.claimed q k ((claimed_taken hp).mp hq)
  · intro q r k hq hr
    rw [ticket_taken hp] at hq hr
    rcases hq with ⟨rfl, rfl⟩ | hq <;> rcases hr with ⟨rfl, hk⟩ | hr
    · rfl
    · exact absurd (h.ticket r _ hr).2 (Nat.lt_irrefl _)
    · exact absurd (hk ▸ (h.ticket q k hq).2) (Nat.lt_irrefl _)
    · exact h.distinct q r k hq hr
  · intro q
    rw [taken, producer_setProducer]
    split
    · exact ⟨by rw [h.writeIdx, u32_mod], List.getElem?_concat_length ..⟩
    · exact (h.pcs q).frame (fun _ _ => getElem?_taken) fun _ _ => rfl
  · exact fun k => h.window_taken hp
  · intro k hle hlt
    rcases eq_or_ne k s.lines.length with rfl | hne
    · exact ⟨p, (ticket_taken hp).mpr (Or.inl ⟨rfl, rfl⟩)⟩
    · rw [length_taken] at hlt
      obtain ⟨q, hq⟩ := h.beyond k hle (by omega)
      exact ⟨q, (ticket_taken hp).mpr (Or.inr hq)⟩
  · exact h.consumer
  · exact h.printed
  · intro out hout
    obtain ⟨l, hl, hparts⟩ := h.prints out hout
    exact ⟨l, getElem?_taken hl, hparts⟩

theorem Sound.cas (h : s.Sound) (hp : s.producer p = .cas (t % logBufferSize) t line)
    (hline : s.lines[t]? = some line) (hlt : t < s.read + logBufferSize) :
    ((s.setSlot (t % logBufferSize) { s.ring (t % logBufferSize) with
      ready := .writing, ticket := t }).setProducer p
        (.write (t % logBufferSize) t line)).Sound := by
  have hempty := h.empty_of_cas hp hlt
  apply h.advance (by rw [hp]; rfl) hlt (by simp [hempty]) (Or.inl rfl)
  · exact ⟨rfl, hline, by simp [NosLogContext.setProducer, setSlot],
      by simp [NosLogContext.setProducer, setSlot]⟩
  · simp only [SlotSound, NosLogContext.setProducer, setSlot, Function.update_self]
    exact ⟨p, by rw [Function.update_self]; rfl⟩

theorem Sound.write (h : s.Sound) (hp : s.producer p = .write (t % logBufferSize) t line)
    (hline : s.lines[t]? = some line) (hwriting : (s.ring (t % logBufferSize)).ready = .writing)
    (howner : (s.ring (t % logBufferSize)).ticket = t) :
    ((s.setSlot (t % logBufferSize) { s.ring (t % logBufferSize) with
      line := line.cut }).setProducer p (.store (t % logBufferSize) t)).Sound := by
  have hlt := h.claimed p t (by rw [hp]; rfl)
  apply h.advance (by rw [hp]; rfl) hlt (by simp [hwriting]) (Or.inl rfl)
  · exact ⟨rfl, by simp [NosLogContext.setProducer, setSlot, hline],
      by simp [NosLogContext.setProducer, setSlot, hwriting],
      by simp [NosLogContext.setProducer, setSlot, howner]⟩
  · simp only [SlotSound, NosLogContext.setProducer, setSlot, Function.update_self, hwriting]
    exact ⟨p, by rw [Function.update_self]; rfl⟩

theorem Sound.store (h : s.Sound) (hp : s.producer p = .store (t % logBufferSize) t)
    (hcut : s.lines[t]?.map LogLine.cut = some (s.ring (t % logBufferSize)).line)
    (hwriting : (s.ring (t % logBufferSize)).ready = .writing)
    (howner : (s.ring (t % logBufferSize)).ticket = t) :
    ((s.setSlot (t % logBufferSize) { s.ring (t % logBufferSize) with
      ready := .ready }).setProducer p .idle).Sound := by
  have hmine : (s.producer p).ticket = some t := by rw [hp]; rfl
  have hlt := h.claimed p t (by rw [hp]; rfl)
  apply h.advance hmine hlt (by simp [hwriting]) (Or.inr rfl)
  · trivial
  · simp only [SlotSound, NosLogContext.setProducer, setSlot, Function.update_self]
    refine ⟨howner, hcut, fun q hq => ?_⟩
    rw [Function.update_apply] at hq
    split at hq
    · cases hq
    · exact absurd (h.distinct q p t hq hmine) ‹_›

theorem Sound.produce (h : s.Sound) (hsafe : s.ClaimsInTime (.produce p))
    (hstep : s.produce p = some s') : s'.Sound := by
  have hpc := h.pcs p
  unfold NosLogContext.produce at hstep
  split at hstep <;> rename_i hp
  · cases hstep
  · obtain rfl := Option.some.inj hstep
    exact h.fetchAdd hp
  · rw [hp] at hpc
    obtain ⟨rfl, hline⟩ := hpc
    have hlt := hsafe _ _ _ hp
    rw [if_pos (h.empty_of_cas hp hlt)] at hstep
    obtain rfl := Option.some.inj hstep
    exact h.cas hp hline hlt
  · obtain rfl := Option.some.inj hstep
    have hdropped : Sound { s with droppedCount := u64 (s.droppedCount + 1) } := { h with }
    exact hdropped.setProducer (by simp [hp, LogPc.ticket]) rfl trivial
  · rw [hp] at hpc
    obtain ⟨rfl, hline, hwriting, howner⟩ := hpc
    obtain rfl := Option.some.inj hstep
    exact h.write hp hline hwriting howner
  · rw [hp] at hpc
    obtain ⟨rfl, hcut, hwriting, howner⟩ := hpc
    obtain rfl := Option.some.inj hstep
    exact h.store hp hcut hwriting howner

end Producer

theorem Sound.setConsumer (h : s.Sound) (hold : s.consumer ≠ .clear) {pc : LogConsumerPc}
    (hnew : pc ≠ .clear) (hprint : pc = .print → s.readSlot.ready = .ready) :
    Sound { s with consumer := pc } :=
  { h with
    consumer := fun hc => hprint (hc.resolve_right hnew)
    printed := by
      have hprinted := h.printed
      rw [printedCount, if_neg hold] at hprinted
      simp only [printedCount, if_neg hnew]
      exact hprinted }

/-- The slot at the read index, when it is ready. -/
theorem Sound.readable (h : s.Sound) (hready : s.readSlot.ready = .ready) :
    s.readSlot.ticket = s.read ∧ s.lines[s.read]?.map LogLine.cut = some s.readSlot.line ∧
      ∀ p, (s.producer p).ticket ≠ some s.read := by
  have hslot := h.window s.read le_rfl (Nat.lt_add_of_pos_right (by decide))
  rw [h.readSlot_eq] at hready ⊢
  simpa only [SlotSound, hready] using hslot

theorem Sound.print (h : s.Sound) (hc : s.consumer = .print) : Sound { s with
    printed := s.printed ++ [(s.readSlot.ticket, s.printLine s.readSlot.line)]
    consumer := .clear } := by
  have hready := h.consumer (Or.inl hc)
  obtain ⟨hticket, hline, -⟩ := h.readable hready
  have hprinted := h.printed
  rw [printedCount, hc] at hprinted
  exact
    { h with
      consumer := fun _ => hready
      printed := by
        simp only [printedCount, if_true, List.map_append, List.map_cons, List.map_nil,
          List.range_succ, hticket]
        exact congrArg (· ++ [s.read]) hprinted
      prints := by
        intro out hout
        rcases List.mem_append.mp hout with hout | hout
        · exact h.prints out hout
        · obtain rfl := List.mem_singleton.mp hout
          obtain ⟨line, hline, hcut⟩ := Option.map_eq_some_iff.mp hline
          refine ⟨line, hticket ▸ hline, ?_⟩
          rw [← hcut]
          exact ⟨rfl, rfl, rfl⟩ }

theorem Sound.clear (h : s.Sound) (hc : s.consumer = .clear) : Sound { s with
    ring := Function.update s.ring (s.readIdx % logBufferSize) { s.readSlot with ready := .empty }
    readIdx := u32 (s.readIdx + 1)
    read := s.read + 1
    consumer := .loadRunning } := by
  obtain ⟨-, hline, hfree⟩ := h.readable (h.consumer (Or.inr hc))
  have hother : ∀ k, k ≠ s.read → s.read ≤ k → k < s.read + logBufferSize →
      Function.update s.ring (s.readIdx % logBufferSize) { s.readSlot with ready := .empty }
        (k % logBufferSize) = s.ring (k % logBufferSize) := by
    intro k hne hle hlt
    rw [h.readIdx, u32_mod]
    exact Function.update_of_ne
      (slot_ne hle hlt le_rfl (Nat.lt_add_of_pos_right (by decide)) hne) ..
  have hpast : ∀ p t, (s.producer p).ticket = some t → s.read < t := fun p t hp =>
    lt_of_le_of_ne (h.ticket p t hp).1 fun he => hfree p (he ▸ hp)
  constructor
  · simp only [h.readIdx, u32_succ]
  · exact h.writeIdx
  · obtain ⟨line, hline, -⟩ := Option.map_eq_some_iff.mp hline
    exact (List.getElem?_eq_some_iff.mp hline).1
  · exact fun p t hp => ⟨hpast p t hp, (h.ticket p t hp).2⟩
  · intro p t hp
    have := h.claimed p t hp
    dsimp only
    omega
  · exact h.distinct
  · intro p
    refine (h.pcs p).frame (fun _ _ hline => hline) fun k hk => ?_
    have hp := hpast p k (LogPc.ticket_of_claimed hk)
    exact hother k hp.ne' hp.le (h.claimed p k hk)
  · intro k hle hlt
    rcases Nat.lt_or_ge k (s.read + logBufferSize) with hk | hk
    · exact (h.window k (Nat.le_of_succ_le hle) hk).frame rfl
        (hother k (Nat.ne_of_gt hle) (Nat.le_of_succ_le hle) hk) (fun _ => Iff.rfl)
        fun _ => Iff.rfl
    · obtain rfl : k = s.read + logBufferSize := by
        dsimp only at hlt
        omega
      simp only [SlotSound, h.readIdx, u32_mod, Nat.add_mod_right, Function.update_self]
      exact h.beyond _ le_rfl
  · exact fun k hle hlt => h.beyond k (by dsimp only at hle; omega) hlt
  · rintro (hc | hc) <;> cases hc
  · have hprinted := h.printed
    rw [printedCount, if_pos hc] at hprinted
    exact hprinted
  · exact h.prints

theorem Sound.consume (h : s.Sound) (hstep : s.consume = some s') : s'.Sound := by
  unfold NosLogContext.consume at hstep
  split at hstep <;> rename_i hc
  · obtain rfl := Option.some.inj hstep
    apply h.setConsumer (by simp [hc])
    · split <;> simp
    · split <;> simp
  · obtain rfl := Option.some.inj hstep
    apply h.setConsumer (by simp [hc])
    · split <;> simp
    · split <;> simp
  · obtain rfl := Option.some.inj hstep
    apply h.setConsumer (by simp [hc])
    · split <;> simp
    · split
      · exact fun _ => ‹_›
      · simp
  · obtain rfl := Option.some.inj hstep
    exact h.print hc
  · obtain rfl := Option.some.inj hstep
    exact h.clear hc
  · cases hstep

theorem sound_init : (init : NosLogContext P).Sound where
  readIdx := rfl
  writeIdx := rfl
  read_le := le_rfl
  ticket p t hp := by cases hp
  claimed p t hp := by cases hp
  distinct p q t hp := by cases hp
  pcs p := trivial
  window t _ _ hlt := by cases hlt
  beyond t _ hlt := by cases hlt
  consumer := by rintro (hc | hc) <;> cases hc
  printed := rfl
  prints out hout := by cases hout

variable [DecidableEq P]

theorem Sound.step (h : s.Sound) {a : LogAction P} (hsafe : s.ClaimsInTime a)
    (hstep : s.step a = some s') : s'.Sound := by
  cases a with
  | log p line =>
    simp only [NosLogContext.step, Option.ite_none_left_eq_some] at hstep
    obtain ⟨hidle, hstep⟩ := hstep
    split at hstep
    · obtain rfl := Option.some.inj hstep
      exact h
    · obtain rfl := Option.some.inj hstep
      exact h.setProducer (by simp [not_ne_iff.mp hidle, LogPc.ticket]) rfl trivial
  | produce p => exact h.produce hsafe hstep
  | consume => exact h.consume hstep
  | setFilterLevel level =>
    obtain rfl := Option.some.inj hstep
    exact { h with }
  | setCompLevel compId level =>
    simp only [NosLogContext.step] at hstep
    split at hstep <;> obtain rfl := Option.some.inj hstep <;> exact { h with }
  | setCompInfo compId name =>
    simp only [NosLogContext.step] at hstep
    split at hstep <;> obtain rfl := Option.some.inj hstep <;> exact { h with }
  | deinit =>
    obtain rfl := Option.some.inj hstep
    exact { h with }

/-- As long as every producer comes to its slot within one round of the consumer, lines are printed
in the order of their tickets and the consumer does not stop at an empty slot before a line. -/
theorem always_linesInOrder (actions : List (LogAction P))
    (hsafe : Guarded step ClaimsInTime (init : NosLogContext P) actions) :
    Always step LinesInOrder (init : NosLogContext P) actions :=
  always_of_guarded (fun _ _ _ h hsafe hstep => h.step hsafe hstep) (fun _ h => h.linesInOrder)
    sound_init hsafe

def someLine : LogLine := ⟨.info, 0, "12:00:00", "up"⟩

/-- The second producer publishes first, and the consumer still prints the first line first. -/
theorem linesInOrder_two_producers : Always step LinesInOrder (init : NosLogContext Bool)
    [.log false someLine, .log true someLine, .produce false, .produce true, .produce true,
      .produce true, .produce true, .produce false, .produce false, .produce false, .consume,
      .consume, .consume, .consume] := by
  apply always_linesInOrder
  refine Guarded.cons rfl trivial (Guarded.cons rfl trivial ?_)
  refine Guarded.cons rfl (by rintro _ _ _ ⟨⟩) (Guarded.cons rfl (by rintro _ _ _ ⟨⟩) ?_)
  refine Guarded.cons rfl (by rintro _ _ _ ⟨⟩; decide) (Guarded.cons rfl (by rintro _ _ _ ⟨⟩) ?_)
  refine Guarded.cons rfl (by rintro _ _ _ ⟨⟩) (Guarded.cons rfl (by rintro _ _ _ ⟨⟩; decide) ?_)
  refine Guarded.cons rfl (by rintro _ _ _ ⟨⟩) (Guarded.cons rfl (by rintro _ _ _ ⟨⟩) ?_)
  refine Guarded.cons rfl trivial (Guarded.cons rfl trivial ?_)
  exact Guarded.cons rfl trivial (Guarded.cons rfl trivial trivial)

/-- A whole call of `nos_log_impl` that publishes its line. -/
def logCall : List (LogAction Unit) :=
  [.log () someLine, .produce (), .produce (), .produce (), .produce ()]

section Overflow

variable {s : NosLogContext Unit}

/-- The only producer is between two calls, and the consumer between two lines. -/
structure Quiet (s : NosLogContext Unit) : Prop where
  producer : s.producer () = .idle
  consumer : s.consumer = .loadRunning
  running : s.keepRunning = true
  level : s.globalFilterLevel = .debug

theorem exec_logCall_empty (h : s.Quiet)
    (hempty : (s.ring (s.writeIdx % logBufferSize)).ready = .empty) :
    exec step s logCall = some { s with
      ring := Function.update s.ring (s.writeIdx % logBufferSize)
        ⟨someLine.cut, .ready, s.lines.length⟩
      writeIdx := u32 (s.writeIdx + 1)
      lines := s.lines ++ [someLine]
      producer := Function.update s.producer () .idle } := by
  simp [logCall, step, NosLogContext.produce, NosLogContext.setProducer, h.producer, h.level,
    someLine, filterLevel, Registered, NosLogLevel.val, hempty, setSlot, Function.update_idem]

theorem exec_logCall_ready (h : s.Quiet)
    (hready : (s.ring (s.writeIdx % logBufferSize)).ready = .ready) :
    exec step s (logCall.take 4) = some { s with
      writeIdx := u32 (s.writeIdx + 1)
      droppedCount := u64 (s.droppedCount + 1)
      lines := s.lines ++ [someLine]
      producer := Function.update s.producer () .idle } := by
  simp [logCall, step, NosLogContext.produce, NosLogContext.setProducer, h.producer, h.level,
    someLine, filterLevel, Registered, NosLogLevel.val, hready, Function.update_idem]

theorem exec_consume (h : s.Quiet) (hready : s.readSlot.ready = .ready) :
    exec step s [.consume, .consume, .consume, .consume] = some { s with
      ring := Function.update s.ring (s.readIdx % logBufferSize)
        { s.readSlot with ready := .empty }
      readIdx := u32 (s.readIdx + 1)
      read := s.read + 1
      printed := s.printed ++ [(s.readSlot.ticket, s.printLine s.readSlot.line)] } := by
  rw [readSlot] at hready
  simp only [exec_cons, exec_nil, step, NosLogContext.consume, h.consumer, h.running, readSlot,
    hready, if_true, Option.bind_some]
  rfl

/-- The slots from one index to another hold a line, and the others are empty. -/
structure Holding (s : NosLogContext Unit) (lo hi : ℕ) : Prop extends s.Quiet where
  readIdx : s.readIdx = lo
  slots : ∀ idx < logBufferSize, (s.ring idx).ready = if lo ≤ idx ∧ idx < hi then .ready else .empty

theorem Quiet.update (h : s.Quiet) {t : NosLogContext Unit} (hp : t.producer () = .idle)
    (hc : t.consumer = s.consumer) (hr : t.keepRunning = s.keepRunning)
    (hl : t.globalFilterLevel = s.globalFilterLevel) : t.Quiet :=
  ⟨hp, hc.trans h.consumer, hr.trans h.running, hl.trans h.level⟩

theorem Holding.slots_update {lo hi lo' hi' k : ℕ} {entry : NosLogEntry} (h : s.Holding lo hi)
    (hentry : entry.ready = if lo' ≤ k ∧ k < hi' then .ready else .empty)
    (hsame : ∀ idx ≠ k, (lo ≤ idx ∧ idx < hi) ↔ (lo' ≤ idx ∧ idx < hi')) :
    ∀ idx < logBufferSize, (Function.update s.ring k entry idx).ready =
      if lo' ≤ idx ∧ idx < hi' then .ready else .empty := by
  intro idx hidx
  rcases eq_or_ne idx k with rfl | hne
  · rw [Function.update_self, hentry]
  · rw [Function.update_of_ne hne, h.slots idx hidx]
    simp only [hsame idx hne]

theorem exists_holding (k : ℕ) (hk : k ≤ logBufferSize) :
    ∃ s, Reachable step (init : NosLogContext Unit) s ∧ s.Holding 0 k ∧ s.writeIdx = k := by
  induction k with
  | zero => exact ⟨init, .refl init, ⟨⟨rfl, rfl, rfl, rfl⟩, rfl, fun _ _ => rfl⟩, rfl⟩
  | succ k ih =>
    obtain ⟨s, hs, h, hwrite⟩ := ih (Nat.le_of_succ_le hk)
    have hmod : s.writeIdx % logBufferSize = k := by rw [hwrite, Nat.mod_eq_of_lt hk]
    have hempty : (s.ring (s.writeIdx % logBufferSize)).ready = .empty := by
      rw [hmod, h.slots k hk, if_neg (by omega)]
    refine ⟨_, hs.trans ⟨logCall, exec_logCall_empty h.toQuiet hempty⟩, ⟨?_, h.readIdx, ?_⟩, ?_⟩
    · exact h.toQuiet.update (by simp) rfl rfl rfl
    · rw [hmod]
      exact h.slots_update (if_pos (by omega)).symm (by omega)
    · rw [hwrite]
      exact Nat.mod_eq_of_lt (by unfold logBufferSize at hk; omega)

theorem exists_drained (k : ℕ) (hk : k ≤ logBufferSize) :
    ∃ s, Reachable step (init : NosLogContext Unit) s ∧ s.Holding k logBufferSize ∧
      s.writeIdx = logBufferSize + 1 := by
  induction k with
  | zero =>
    obtain ⟨s, hs, h, hwrite⟩ := exists_holding logBufferSize le_rfl
    have hready : (s.ring (s.writeIdx % logBufferSize)).ready = .ready := by
      rw [hwrite, h.slots _ (by decide)]
      rfl
    refine ⟨_, hs.trans ⟨logCall.take 4, exec_logCall_ready h.toQuiet hready⟩,
      ⟨?_, h.readIdx, h.slots⟩, ?_⟩
    · exact h.toQuiet.update (by simp) rfl rfl rfl
    · rw [hwrite]
      rfl
  | succ k ih =>
    obtain ⟨s, hs, h, hwrite⟩ := ih (Nat.le_of_succ_le hk)
    have hmod : s.readIdx % logBufferSize = k := by rw [h.readIdx, Nat.mod_eq_of_lt hk]
    have hready : s.readSlot.ready = .ready := by
      rw [readSlot, hmod, h.slots k hk, if_pos ⟨le_rfl, hk⟩]
    refine ⟨_, hs.trans ⟨_, exec_consume h.toQuiet hready⟩, ⟨?_, ?_, ?_⟩, hwrite⟩
    · exact h.toQuiet.update h.producer rfl rfl rfl
    · rw [h.readIdx]
      exact Nat.mod_eq_of_lt (by unfold logBufferSize at hk; omega)
    · rw [hmod]
      exact h.slots_update (if_neg (by omega)).symm (by omega)

/-- The line after the dropped one is ready in slot 1, while the consumer waits at slot 0. -/
theorem not_linesInOrder_after_drop :
    ∃ s, Reachable step (init : NosLogContext Unit) s ∧ (s.ring 1).ready = .ready ∧
      s.producer () = .idle ∧ s.readSlot.ready = .empty ∧ ¬ s.LinesInOrder := by
  obtain ⟨s, hs, h, hwrite⟩ := exists_drained logBufferSize le_rfl
  have hempty : (s.ring (s.writeIdx % logBufferSize)).ready = .empty := by
    rw [hwrite, h.slots _ (by decide)]
    rfl
  have hone : s.writeIdx % logBufferSize = 1 := by rw [hwrite]; rfl
  have hzero : s.readIdx % logBufferSize = 0 := by rw [h.readIdx]; rfl
  have hread : (s.ring 0).ready = .empty := by
    rw [h.slots 0 (by decide)]
    rfl
  refine ⟨_, hs.trans ⟨logCall, exec_logCall_empty h.toQuiet hempty⟩, ?_, ?_, ?_, ?_⟩
  · simp [hone]
  · simp
  · simp [readSlot, hzero, hone, hread]
  · intro hlaw
    have hprogress := hlaw.progress ⟨1, by decide, by simp [hone]⟩ (by simp [LogPc.ticket])
    simp [readSlot, hzero, hone, hread] at hprogress

end Overflow

end NosLogContext

end GeminiNOS

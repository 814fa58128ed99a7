import GeminiNOS.Log.LogBuffer

/-! # Exclusive slots

A slot that is being written belongs to the one producer that has claimed it, and a
slot that is ready belongs to the consumer. No ticket is needed for this: it holds
however often the indices have wrapped around. Below it, producers write and the
consumer reads the fields of a slot one by one.
-/

namespace GeminiNOS

open Foundations Run

/-- The slot that a producer has claimed, and the ticket it has claimed it for. -/
def LogPc.slot : LogPc → Option (ℕ × ℕ)
  | .write idx ticket _ | .store idx ticket => some (idx, ticket)
  | _ => none

namespace NosLogContext

variable {P : Type*} {s s' : NosLogContext P} {p q : P} {pc : LogPc} {a : LogAction P}
  {line : LogLine} {entry : NosLogEntry} {idx t : ℕ}

/-- No step of a producer or of the consumer: at most a call of `nos_log_impl` has begun. -/
structure SameSlots (s s' : NosLogContext P) : Prop where
  ring : s'.ring = s.ring
  readIdx : s'.readIdx = s.readIdx
  consumer : s'.consumer = s.consumer
  lines : s'.lines = s.lines
  printed : s'.printed = s.printed
  dropped : s'.droppedCount = s.droppedCount
  running : s'.keepRunning = true → s.keepRunning = true
  producer : ∀ q, s'.producer q = s.producer q ∨
    s.producer q = .idle ∧ ∃ line, s'.producer q = .fetchAdd line

theorem sameSlots_step [DecidableEq P] (hproduce : ∀ p, a ≠ .produce p) (hconsume : a ≠ .consume)
    (hs : s.step a = some s') : s.SameSlots s' := by
  have hrefl : s.SameSlots s := ⟨rfl, rfl, rfl, rfl, rfl, rfl, id, fun _ => .inl rfl⟩
  cases a with
  | log p line =>
    simp only [NosLogContext.step] at hs
    split_ifs at hs with hidle <;> obtain rfl := Option.some.inj hs
    · exact hrefl
    · refine ⟨rfl, rfl, rfl, rfl, rfl, rfl, id, fun q => ?_⟩
      by_cases hq : q = p
      · subst hq
        exact .inr ⟨not_ne_iff.mp hidle, line, Function.update_self ..⟩
      · exact .inl (Function.update_of_ne hq ..)
  | produce p => exact absurd rfl (hproduce p)
  | consume => exact absurd rfl hconsume
  | setFilterLevel level =>
    obtain rfl := Option.some.inj hs
    exact ⟨rfl, rfl, rfl, rfl, rfl, rfl, id, fun _ => .inl rfl⟩
  | deinit =>
    obtain rfl := Option.some.inj hs
    exact ⟨rfl, rfl, rfl, rfl, rfl, rfl, (fun h => by cases h), fun _ => .inl rfl⟩
  | setCompLevel compId level | setCompInfo compId name =>
    simp only [NosLogContext.step] at hs
    split at hs <;> obtain rfl := Option.some.inj hs
    · exact hrefl
    · exact ⟨rfl, rfl, rfl, rfl, rfl, rfl, id, fun _ => .inl rfl⟩

/-- The slots being written have one producer each, and the consumer reads a ready one. -/
structure Owned (s : NosLogContext P) : Prop where
  writing : ∀ p idx t, (s.producer p).slot = some (idx, t) →
    (s.ring idx).ready = .writing ∧ (s.ring idx).ticket = t
  oneWriter : ∀ p q idx t t', (s.producer p).slot = some (idx, t) →
    (s.producer q).slot = some (idx, t') → p = q
  reading : s.consumer = .print ∨ s.consumer = .clear → s.readSlot.ready = .ready

theorem owned_init : (init : NosLogContext P).Owned where
  writing _ _ _ h := by cases h
  oneWriter _ _ _ _ _ h := by cases h
  reading h := by
    rcases h with h | h <;> cases h

theorem Owned.frame (h : s.Owned) (hring : s'.ring = s.ring) (hread : s'.readIdx = s.readIdx)
    (hslot : ∀ p x, (s'.producer p).slot = some x → (s.producer p).slot = some x)
    (hconsumer : s'.consumer = .print ∨ s'.consumer = .clear →
      s.consumer = .print ∨ s.consumer = .clear) : s'.Owned := by
  constructor
  · intro p idx t hp
    rw [hring]
    exact h.writing p idx t (hslot p _ hp)
  · intro p q idx t t' hp hq
    exact h.oneWriter p q idx t t' (hslot p _ hp) (hslot q _ hq)
  · intro hc
    rw [readSlot, hring, hread]
    exact h.reading (hconsumer hc)

theorem Owned.setSlot [DecidableEq P] (h : s.Owned) (hbusy : (s.ring idx).ready ≠ .ready)
    (hothers : ∀ q t, (s.producer q).slot = some (idx, t) → q = p)
    (hpc : ∀ x, pc.slot = some x → x = (idx, entry.ticket) ∧ entry.ready = .writing) :
    ((s.setSlot idx entry).setProducer p pc).Owned := by
  have hne : ∀ q i t, q ≠ p → (s.producer q).slot = some (i, t) → i ≠ idx := by
    rintro q i t hqp hq rfl
    exact hqp (hothers q t hq)
  constructor
  · intro q i t hq
    simp only [setProducer, NosLogContext.setSlot, Function.update_apply] at hq ⊢
    split at hq
    · obtain ⟨he, hready⟩ := hpc _ hq
      obtain ⟨rfl, rfl⟩ := Prod.mk.inj he
      rw [if_pos rfl]
      exact ⟨hready, rfl⟩
    · rw [if_neg (hne q i t ‹_› hq)]
      exact h.writing q i t hq
  · intro q r i t t' hq hr
    simp only [setProducer, Function.update_apply] at hq hr
    split at hq <;> split at hr
    · exact ‹q = p›.trans ‹r = p›.symm
    · obtain ⟨he, -⟩ := hpc _ hq
      exact absurd (Prod.mk.inj he).1 (hne r i t' ‹_› hr)
    · obtain ⟨he, -⟩ := hpc _ hr
      exact absurd (Prod.mk.inj he).1 (hne q i t ‹_› hq)
    · exact h.oneWriter q r i t t' hq hr
  · intro hc
    have hready := h.reading hc
    have hread : s.readIdx % logBufferSize ≠ idx := by
      rintro rfl
      exact hbusy hready
    simpa [readSlot, setProducer, NosLogContext.setSlot, Function.update_of_ne hread] using hready

theorem Owned.produce [DecidableEq P] (h : s.Owned) (hs : s.produce p = some s') : s'.Owned := by
  have hmove : ∀ (s₁ : NosLogContext P) pc, s₁.ring = s.ring → s₁.readIdx = s.readIdx →
      s₁.consumer = s.consumer → s₁.producer = s.producer → pc.slot = none →
      (s₁.setProducer p pc).Owned := by
    intro s₁ pc hring hread hconsumer hproducer hpc
    refine h.frame hring hread (fun q x hq => ?_) fun hc => by rwa [← hconsumer]
    simp only [setProducer, hproducer, Function.update_apply] at hq
    split at hq
    · rw [hpc] at hq
      cases hq
    · exact hq
  unfold NosLogContext.produce at hs
  split at hs
  · cases hs
  · obtain rfl := Option.some.inj hs
    exact hmove _ _ rfl rfl rfl rfl rfl
  · split at hs <;> obtain rfl := Option.some.inj hs
    · rename_i idx t line hp hempty
      refine h.setSlot ?_ (fun q t' hq => ?_) ?_
      · rw [hempty]
        exact SlotState.noConfusion
      · rw [(h.writing q idx t' hq).1] at hempty
        cases hempty
      · rintro x ⟨⟩
        exact ⟨rfl, rfl⟩
    · exact hmove _ _ rfl rfl rfl rfl rfl
  · obtain rfl := Option.some.inj hs
    exact hmove _ _ rfl rfl rfl rfl rfl
  · obtain rfl := Option.some.inj hs
    rename_i idx t line hp
    have hslot : (s.producer p).slot = some (idx, t) := by rw [hp]; rfl
    obtain ⟨hready, hticket⟩ := h.writing p idx t hslot
    refine h.setSlot (by rw [hready]; exact SlotState.noConfusion) (fun q t' hq => ?_) ?_
    · exact h.oneWriter q p idx t' t hq hslot
    · rintro x ⟨⟩
      exact ⟨by rw [hticket], hready⟩
  · obtain rfl := Option.some.inj hs
    rename_i idx t hp
    have hslot : (s.producer p).slot = some (idx, t) := by rw [hp]; rfl
    have hready := (h.writing p idx t hslot).1
    refine h.setSlot (by rw [hready]; exact SlotState.noConfusion) (fun q t' hq => ?_) ?_
    · exact h.oneWriter q p idx t' t hq hslot
    · rintro x ⟨⟩

theorem Owned.consume (h : s.Owned) (hs : s.consume = some s') : s'.Owned := by
  unfold NosLogContext.consume at hs
  split at hs
  · obtain rfl := Option.some.inj hs
    refine h.frame rfl rfl (fun _ _ hq => hq) fun hc => ?_
    dsimp only at hc
    split at hc <;> rcases hc with hc | hc <;> cases hc
  · obtain rfl := Option.some.inj hs
    refine h.frame rfl rfl (fun _ _ hq => hq) fun hc => ?_
    dsimp only at hc
    split at hc <;> rcases hc with hc | hc <;> cases hc
  · obtain rfl := Option.some.inj hs
    refine ⟨h.writing, h.oneWriter, fun hc => ?_⟩
    dsimp only at hc
    split at hc
    · assumption
    · rcases hc with hc | hc <;> cases hc
  · obtain rfl := Option.some.inj hs
    exact ⟨h.writing, h.oneWriter, fun _ => h.reading (.inl ‹_›)⟩
  · obtain rfl := Option.some.inj hs
    have hready := h.reading (.inr ‹_›)
    refine ⟨fun p idx t hp => ?_, h.oneWriter, fun hc => by rcases hc with hc | hc <;> cases hc⟩
    have hslot := h.writing p idx t hp
    have hne : idx ≠ s.readIdx % logBufferSize := by
      rintro rfl
      rw [readSlot, hslot.1] at hready
      cases hready
    simpa [Function.update_of_ne hne] using hslot
  · cases hs

theorem Owned.sameSlots (h : s.Owned) (hsame : s.SameSlots s') : s'.Owned := by
  refine h.frame hsame.ring hsame.readIdx (fun q x hq => ?_) fun hc => hsame.consumer ▸ hc
  rcases hsame.producer q with hp | ⟨-, line, hp⟩ <;> rw [hp] at hq
  · exact hq
  · cases hq

/-- Whatever happens, the slots stay exclusive. -/
theorem Owned.step [DecidableEq P] (h : s.Owned) (hs : s.step a = some s') : s'.Owned := by
  cases a with
  | produce p => exact h.produce hs
  | consume => exact h.consume hs
  | log | setFilterLevel | setCompLevel | setCompInfo | deinit =>
    exact h.sameSlots (sameSlots_step (by rintro _ ⟨⟩) (by rintro ⟨⟩) hs)

end NosLogContext

/-- The fields of a slot that a producer writes, in this order. -/
inductive LogField where
  | level
  | compId
  | timeStr
  | message
  deriving DecidableEq, Repr

def LogField.succ? : LogField → Option LogField
  | .level => some .compId
  | .compId => some .timeStr
  | .timeStr => some .message
  | .message => none

def LogLine.setField (line source : LogLine) : LogField → LogLine
  | .level => { line with level := source.level }
  | .compId => { line with compId := source.compId }
  | .timeStr => { line with timeStr := source.timeStr }
  | .message => { line with message := source.message }

/-- What the consumer has read of the slot that it prints: the component id for the test of the
name, the id under which the name is looked up if there is one, and the arguments of `printf`. -/
inductive LogReading where
  | testComp
  | nameComp (testedId : ℕ)
  | level (testedId : ℕ) (namedId : Option ℕ)
  | timeStr (testedId : ℕ) (namedId : Option ℕ) (level : NosLogLevel)
  | message (testedId : ℕ) (namedId : Option ℕ) (level : NosLogLevel) (timeStr : String)
  deriving DecidableEq, Repr

/-- What the consumer has read of a slot for one printed line. -/
structure LogOutput where
  testedId : ℕ
  namedId : Option ℕ
  level : NosLogLevel
  timeStr : String
  message : String
  deriving DecidableEq, Repr

/-- The log with the writing and the printing of a line in several steps: the field that each
producer writes next, what the consumer has read of its slot, and what it has read for each line
that is printed. -/
structure LogFields (P : Type*) where
  context : NosLogContext P
  next : P → LogField
  reading : LogReading
  outputs : List LogOutput

/-- All that has been read for a printed line is of one call. -/
def LogOutput.ComesFrom (out : LogOutput) (line : LogLine) : Prop :=
  out.testedId = line.compId ∧ (out.namedId = none ∨ out.namedId = some line.compId) ∧
    out.level = line.level ∧ out.timeStr = line.timeStr ∧ out.message = line.cut.message

namespace LogFields

variable {P : Type*}

/-- The log after `nos_log_init`. -/
def init : LogFields P := ⟨NosLogContext.init, fun _ => .level, .testComp, []⟩

def nameOf (s : LogFields P) (namedId : Option ℕ) : String :=
  namedId.elim "System" fun compId => (s.context.compInfo compId).name

/-- The next step of a producer: one field, or one atomic operation. -/
def produce [DecidableEq P] (s : LogFields P) (p : P) : Option (LogFields P) :=
  match s.context.producer p with
  | .write idx ticket line =>
    let entry := s.context.ring idx
    let context := s.context.setSlot idx
      { entry with line := entry.line.setField line.cut (s.next p) }
    match (s.next p).succ? with
    | some field => some { s with
      context := context.setProducer p (.write idx ticket line)
      next := Function.update s.next p field }
    | none => some { s with
      context := context.setProducer p (.store idx ticket)
      next := Function.update s.next p .level }
  | _ => (s.context.produce p).map fun context =>
    { s with context := context, next := Function.update s.next p .level }

/-- The next step of the consumer: one read of its slot, or one atomic operation. -/
def consume (s : LogFields P) : Option (LogFields P) :=
  match s.context.consumer with
  | .print =>
    let line := s.context.readSlot.line
    match s.reading with
    | .testComp => some { s with
      reading :=
        if s.context.Registered line.compId then .nameComp line.compId
        else .level line.compId none }
    | .nameComp testedId => some { s with reading := .level testedId (some line.compId) }
    | .level testedId namedId => some { s with reading := .timeStr testedId namedId line.level }
    | .timeStr testedId namedId level => some { s with
      reading := .message testedId namedId level line.timeStr }
    | .message testedId namedId level timeStr =>
      some { s with
        context := { s.context with
          printed := s.context.printed ++ [(s.context.readSlot.ticket,
            ⟨timeStr, levelToStr level, s.nameOf namedId, line.message⟩)]
          consumer := .clear }
        outputs := s.outputs ++ [⟨testedId, namedId, level, timeStr, line.message⟩] }
  | _ => s.context.consume.map fun context =>
    { s with context := context, reading := .testComp }

def step [DecidableEq P] (s : LogFields P) : LogAction P → Option (LogFields P)
  | .produce p => s.produce p
  | .consume => s.consume
  | a => (s.context.step a).map fun context => { s with context := context }

/-- At most one producer writes a slot, and that while it is being written; the consumer reads a
ready slot; and what is printed comes from one call. -/
structure SlotsExclusive (s : LogFields P) : Prop where
  oneWriter : ∀ p q idx t t' line line', s.context.producer p = .write idx t line →
    s.context.producer q = .write idx t' line' → p = q
  writing : ∀ p idx t line, s.context.producer p = .write idx t line →
    (s.context.ring idx).ready = .writing
  reading : s.context.consumer = .print → s.context.readSlot.ready = .ready
  printed : ∀ out ∈ s.outputs, ∃ (k : ℕ) (line : LogLine), s.context.lines[k]? = some line ∧
    out.ComesFrom line

variable {s s' : LogFields P} {p q : P} {a : LogAction P} {line source : LogLine}
  {field : LogField} {reading : LogReading} {context : NosLogContext P} {idx t : ℕ}

def WrittenTo (line source : LogLine) : LogField → Prop
  | .level => True
  | .compId => line.level = source.level
  | .timeStr => line.level = source.level ∧ line.compId = source.compId
  | .message => line.level = source.level ∧ line.compId = source.compId ∧
      line.timeStr = source.timeStr

def ReadFrom (line : LogLine) : LogReading → Prop
  | .testComp => True
  | .nameComp testedId => testedId = line.compId
  | .level testedId namedId => testedId = line.compId ∧
      (namedId = none ∨ namedId = some line.compId)
  | .timeStr testedId namedId level => testedId = line.compId ∧
      (namedId = none ∨ namedId = some line.compId) ∧ level = line.level
  | .message testedId namedId level timeStr => testedId = line.compId ∧
      (namedId = none ∨ namedId = some line.compId) ∧ level = line.level ∧
        timeStr = line.timeStr

/-- What a producer with this next field knows of its line and of its slot. -/
def PcSound (context : NosLogContext P) (next : LogField) : LogPc → Prop
  | .cas _ t line => context.lines[t]? = some line
  | .write idx t line => context.lines[t]? = some line ∧
      WrittenTo (context.ring idx).line line.cut next
  | .store idx t => context.lines[t]?.map LogLine.cut = some (context.ring idx).line
  | _ => True

/-- The slots are exclusive, the one that a producer writes holds what it has written of its line,
and one that is ready holds the line of a call. -/
structure Sound (s : LogFields P) : Prop where
  owned : s.context.Owned
  pcs : ∀ p, PcSound s.context (s.next p) (s.context.producer p)
  ready : ∀ idx, (s.context.ring idx).ready = .ready →
    ∃ k : ℕ, s.context.lines[k]?.map LogLine.cut = some (s.context.ring idx).line
  reads : s.context.consumer = .print → ReadFrom s.context.readSlot.line s.reading
  outputs : ∀ out ∈ s.outputs, ∃ (k : ℕ) (line : LogLine), s.context.lines[k]? = some line ∧
    out.ComesFrom line

theorem writtenTo_setField {next : LogField} (h : WrittenTo line source field)
    (hnext : field.succ? = some next) : WrittenTo (line.setField source field) source next := by
  cases field with
  | level =>
    cases hnext
    rfl
  | compId =>
    cases hnext
    exact ⟨h, rfl⟩
  | timeStr =>
    cases hnext
    exact ⟨h.1, h.2, rfl⟩
  | message => cases hnext

theorem setField_last (h : WrittenTo line source field) (hlast : field.succ? = none) :
    line.setField source field = source := by
  cases field with
  | level | compId | timeStr => cases hlast
  | message =>
    obtain ⟨hlevel, hcomp, htime⟩ := h
    cases line
    cases source
    subst hlevel hcomp htime
    rfl

theorem sound_init : (init : LogFields P).Sound where
  owned := NosLogContext.owned_init
  pcs _ := trivial
  ready _ h := by cases h
  reads h := by cases h
  outputs _ h := absurd h List.not_mem_nil

theorem Sound.slotsExclusive (h : s.Sound) : s.SlotsExclusive where
  oneWriter p q idx t t' line line' hp hq := by
    refine h.owned.oneWriter p q idx t t' ?_ ?_
    · rw [hp]
      rfl
    · rw [hq]
      rfl
  writing p idx t line hp := (h.owned.writing p idx t (by rw [hp]; rfl)).1
  reading hc := h.owned.reading (.inl hc)
  printed := h.outputs

theorem PcSound.frame {context' : NosLogContext P} {pc : LogPc} (h : PcSound context field pc)
    (hlines : ∀ (k : ℕ) (line : LogLine), context.lines[k]? = some line →
      context'.lines[k]? = some line)
    (hslot : ∀ idx t, pc.slot = some (idx, t) → context'.ring idx = context.ring idx) :
    PcSound context' field pc := by
  cases pc with
  | idle | fetchAdd | drop => trivial
  | cas idx t line => exact hlines t line h
  | write idx t line =>
    obtain ⟨hline, hwritten⟩ := h
    refine ⟨hlines t line hline, ?_⟩
    rwa [hslot idx t rfl]
  | store idx t =>
    obtain ⟨line, hline, hcut⟩ := Option.map_eq_some_iff.mp h
    change context'.lines[t]?.map LogLine.cut = some (context'.ring idx).line
    rw [hlines t line hline, hslot idx t rfl, ← hcut, Option.map_some]

theorem Sound.frame (h : s.Sound) (howned : s'.context.Owned)
    (hring : s'.context.ring = s.context.ring) (hread : s'.context.readIdx = s.context.readIdx)
    (hlines : ∀ (k : ℕ) (line : LogLine), s.context.lines[k]? = some line →
      s'.context.lines[k]? = some line)
    (hpcs : ∀ q, (s'.context.producer q = s.context.producer q ∧ s'.next q = s.next q) ∨
      PcSound s'.context (s'.next q) (s'.context.producer q))
    (hreads : s'.context.consumer = .print → s.context.consumer = .print ∧
      s'.reading = s.reading ∨ s'.reading = .testComp)
    (houtputs : s'.outputs = s.outputs) : s'.Sound := by
  constructor
  · exact howned
  · intro q
    rcases hpcs q with ⟨hpc, hnext⟩ | hpc
    · rw [hpc, hnext]
      exact (h.pcs q).frame hlines fun _ _ _ => by rw [hring]
    · exact hpc
  · intro idx hready
    rw [hring] at hready ⊢
    obtain ⟨k, hk⟩ := h.ready idx hready
    obtain ⟨line, hline, hcut⟩ := Option.map_eq_some_iff.mp hk
    exact ⟨k, by rw [hlines k line hline, ← hcut, Option.map_some]⟩
  · intro hc
    rw [NosLogContext.readSlot, hring, hread]
    rcases hreads hc with ⟨hc, hr⟩ | hr
    · rw [hr]
      exact h.reads hc
    · rw [hr]
      trivial
  · intro out hout
    rw [houtputs] at hout
    obtain ⟨k, line, hline, hfrom⟩ := h.outputs out hout
    exact ⟨k, line, hlines k line hline, hfrom⟩

section

variable [DecidableEq P]

theorem Sound.setSlot (h : s.Sound) {entry : NosLogEntry} {pc : LogPc}
    (howned : ((s.context.setSlot idx entry).setProducer p pc).Owned)
    (hbusy : (s.context.ring idx).ready ≠ .ready)
    (hothers : ∀ q t, (s.context.producer q).slot = some (idx, t) → q = p)
    (hpc : PcSound ((s.context.setSlot idx entry).setProducer p pc) field pc)
    (hready : entry.ready = .ready →
      ∃ k : ℕ, s.context.lines[k]?.map LogLine.cut = some entry.line) :
    Sound { s with
      context := (s.context.setSlot idx entry).setProducer p pc
      next := Function.update s.next p field } := by
  constructor
  · exact howned
  · intro q
    by_cases hq : q = p
    · subst hq
      simpa [NosLogContext.setProducer] using hpc
    · simp only [NosLogContext.setProducer, Function.update_of_ne hq]
      refine (h.pcs q).frame (fun _ _ hline => hline) fun i t hslot => ?_
      have hne : i ≠ idx := by
        rintro rfl
        exact hq (hothers q t hslot)
      exact Function.update_of_ne hne ..
  · intro i hi
    simp only [NosLogContext.setProducer, NosLogContext.setSlot, Function.update_apply] at hi ⊢
    split at hi
    · rw [if_pos ‹_›]
      exact hready hi
    · rw [if_neg ‹_›]
      exact h.ready i hi
  · intro hc
    have hslot := h.owned.reading (.inl hc)
    have hne : s.context.readIdx % logBufferSize ≠ idx := by
      rintro rfl
      exact hbusy hslot
    simpa [NosLogContext.readSlot, NosLogContext.setProducer, NosLogContext.setSlot,
      Function.update_of_ne hne] using h.reads hc
  · exact h.outputs

theorem Sound.produce (h : s.Sound) (hs : s.produce p = some s') : s'.Sound := by
  have hmove : ∀ context : NosLogContext P, context.Owned → context.ring = s.context.ring →
      context.readIdx = s.context.readIdx → context.consumer = s.context.consumer →
      (∀ (k : ℕ) (line : LogLine), s.context.lines[k]? = some line →
        context.lines[k]? = some line) →
      (∀ q, q ≠ p → context.producer q = s.context.producer q) →
      PcSound context .level (context.producer p) →
      Sound { s with context := context, next := Function.update s.next p .level } := by
    intro context howned hring hread hconsumer hlines hothers hpc
    refine h.frame howned hring hread hlines (fun q => ?_)
      (fun hc => .inl ⟨hconsumer ▸ hc, rfl⟩) rfl
    by_cases hq : q = p
    · subst hq
      right
      simpa using hpc
    · exact .inl ⟨hothers q hq, Function.update_of_ne hq ..⟩
  have hpc := h.pcs p
  unfold LogFields.produce at hs
  split at hs
  · rename_i idx t line hp
    rw [hp] at hpc
    obtain ⟨hline, hwritten⟩ := hpc
    have hslot : (s.context.producer p).slot = some (idx, t) := by rw [hp]; rfl
    obtain ⟨hwriting, hticket⟩ := h.owned.writing p idx t hslot
    have hbusy : (s.context.ring idx).ready ≠ .ready := by
      rw [hwriting]
      exact SlotState.noConfusion
    have hothers : ∀ q t', (s.context.producer q).slot = some (idx, t') → q = p :=
      fun q t' hq => h.owned.oneWriter q p idx t' t hq hslot
    dsimp only at hs
    split at hs <;> obtain rfl := Option.some.inj hs
    · rename_i field hnext
      refine h.setSlot (h.owned.setSlot hbusy hothers ?_) hbusy hothers ⟨hline, ?_⟩ ?_
      · rintro x ⟨⟩
        exact ⟨by rw [hticket], hwriting⟩
      · simpa [NosLogContext.setProducer, NosLogContext.setSlot] using
          writtenTo_setField hwritten hnext
      · intro hready
        exact absurd hready hbusy
    · rename_i hlast
      have hcut := setField_last hwritten hlast
      refine h.setSlot (h.owned.setSlot hbusy hothers ?_) hbusy hothers ?_ ?_
      · rintro x ⟨⟩
        exact ⟨by rw [hticket], hwriting⟩
      · simp [PcSound, NosLogContext.setProducer, NosLogContext.setSlot, hline, hcut]
      · intro hready
        exact absurd hready hbusy
  · obtain ⟨context, hcontext, rfl⟩ := Option.map_eq_some_iff.mp hs
    have howned := h.owned.produce hcontext
    unfold NosLogContext.produce at hcontext
    split at hcontext
    · cases hcontext
    · obtain rfl := Option.some.inj hcontext
      refine hmove _ howned rfl rfl rfl (fun k line hline => ?_)
        (fun q hq => Function.update_of_ne hq ..) ?_
      · exact (List.getElem?_append_left (List.getElem?_eq_some_iff.mp hline).1).trans hline
      · simp [NosLogContext.setProducer, PcSound]
    · rename_i idx t line hp
      rw [hp] at hpc
      split at hcontext <;> obtain rfl := Option.some.inj hcontext
      · rename_i hempty
        have hbusy : (s.context.ring idx).ready ≠ .ready := by
          rw [hempty]
          exact SlotState.noConfusion
        refine h.setSlot howned hbusy (fun q t' hq => ?_) ⟨hpc, trivial⟩ ?_
        · rw [(h.owned.writing q idx t' hq).1] at hempty
          cases hempty
        · rintro ⟨⟩
      · refine hmove _ howned rfl rfl rfl (fun _ _ hline => hline)
          (fun q hq => Function.update_of_ne hq ..) ?_
        simp [NosLogContext.setProducer, PcSound]
    · obtain rfl := Option.some.inj hcontext
      refine hmove _ howned rfl rfl rfl (fun _ _ hline => hline)
        (fun q hq => Function.update_of_ne hq ..) ?_
      simp [NosLogContext.setProducer, PcSound]
    · rename_i hnot _ idx t line hp
      exact absurd hp (hnot idx t line)
    · rename_i idx t hp
      rw [hp] at hpc
      obtain rfl := Option.some.inj hcontext
      have hslot : (s.context.producer p).slot = some (idx, t) := by rw [hp]; rfl
      have hwriting := (h.owned.writing p idx t hslot).1
      have hbusy : (s.context.ring idx).ready ≠ .ready := by
        rw [hwriting]
        exact SlotState.noConfusion
      refine h.setSlot howned hbusy (fun q t' hq => ?_) trivial fun _ => ⟨t, hpc⟩
      exact h.owned.oneWriter q p idx t' t hq hslot

end

theorem Sound.read (h : s.Sound) (hread : ReadFrom s.context.readSlot.line reading) :
    Sound { s with reading := reading } :=
  ⟨h.owned, h.pcs, h.ready, fun _ => hread, h.outputs⟩

theorem Sound.consume (h : s.Sound) (hs : s.consume = some s') : s'.Sound := by
  unfold LogFields.consume at hs
  split at hs
  · rename_i hc
    have hreads := h.reads hc
    dsimp only at hs
    split at hs
    · obtain rfl := Option.some.inj hs
      refine h.read ?_
      split
      · rfl
      · exact ⟨rfl, .inl rfl⟩
    · rename_i testedId hr
      rw [hr] at hreads
      obtain rfl := Option.some.inj hs
      exact h.read ⟨hreads, .inr rfl⟩
    · rename_i testedId namedId hr
      rw [hr] at hreads
      obtain rfl := Option.some.inj hs
      exact h.read ⟨hreads.1, hreads.2, rfl⟩
    · rename_i testedId namedId level hr
      rw [hr] at hreads
      obtain rfl := Option.some.inj hs
      exact h.read ⟨hreads.1, hreads.2.1, hreads.2.2, rfl⟩
    · rename_i testedId namedId level timeStr hr
      rw [hr] at hreads
      obtain ⟨htested, hnamed, hlevel, htime⟩ := hreads
      obtain rfl := Option.some.inj hs
      have hready := h.owned.reading (.inl hc)
      refine ⟨⟨h.owned.writing, h.owned.oneWriter, fun _ => hready⟩, h.pcs, h.ready,
        (fun hc' => by cases hc'), fun out hout => ?_⟩
      rcases List.mem_append.mp hout with hout | hout
      · exact h.outputs out hout
      · obtain rfl := List.mem_singleton.mp hout
        obtain ⟨k, hk⟩ := h.ready _ hready
        obtain ⟨line, hline, hcut⟩ := Option.map_eq_some_iff.mp hk
        change line.cut = s.context.readSlot.line at hcut
        rw [← hcut] at htested hnamed hlevel htime
        exact ⟨k, line, hline, htested, hnamed, hlevel, htime, by rw [← hcut]⟩
  · rename_i hnot
    obtain ⟨context, hcontext, rfl⟩ := Option.map_eq_some_iff.mp hs
    have howned := h.owned.consume hcontext
    unfold NosLogContext.consume at hcontext
    split at hcontext
    · obtain rfl := Option.some.inj hcontext
      exact h.frame howned rfl rfl (fun _ _ hline => hline) (fun q => .inl ⟨rfl, rfl⟩)
        (fun _ => .inr rfl) rfl
    · obtain rfl := Option.some.inj hcontext
      exact h.frame howned rfl rfl (fun _ _ hline => hline) (fun q => .inl ⟨rfl, rfl⟩)
        (fun _ => .inr rfl) rfl
    · obtain rfl := Option.some.inj hcontext
      exact h.frame howned rfl rfl (fun _ _ hline => hline) (fun q => .inl ⟨rfl, rfl⟩)
        (fun _ => .inr rfl) rfl
    · exact absurd ‹_› hnot
    · rename_i hc
      have hready := h.owned.reading (.inr hc)
      obtain rfl := Option.some.inj hcontext
      refine ⟨howned, fun q => ?_, fun idx hidx => ?_, (fun hc' => by cases hc'), h.outputs⟩
      · refine (h.pcs q).frame (fun _ _ hline => hline) fun idx t hslot => ?_
        have hne : idx ≠ s.context.readIdx % logBufferSize := by
          rintro rfl
          rw [NosLogContext.readSlot, (h.owned.writing q _ t hslot).1] at hready
          cases hready
        exact Function.update_of_ne hne ..
      · simp only [Function.update_apply] at hidx ⊢
        split at hidx
        · cases hidx
        · rw [if_neg ‹_›]
          exact h.ready idx hidx
    · cases hcontext

theorem Sound.sameSlots (h : s.Sound) (hsame : s.context.SameSlots context) :
    Sound { s with context := context } := by
  refine h.frame (h.owned.sameSlots hsame) hsame.ring hsame.readIdx
    (fun k line hline => hsame.lines ▸ hline) (fun q => ?_)
    (fun hc => .inl ⟨hsame.consumer ▸ hc, rfl⟩) rfl
  rcases hsame.producer q with hp | ⟨-, line, hp⟩
  · exact .inl ⟨hp, rfl⟩
  · right
    dsimp only
    rw [hp]
    trivial

theorem Sound.step [DecidableEq P] (h : s.Sound) (hs : s.step a = some s') : s'.Sound := by
  cases a with
  | produce p => exact h.produce hs
  | consume => exact h.consume hs
  | log | setFilterLevel | setCompLevel | setCompInfo | deinit =>
    simp only [LogFields.step, Option.map_eq_some_iff] at hs
    obtain ⟨context, hcontext, rfl⟩ := hs
    exact h.sameSlots (NosLogContext.sameSlots_step (by rintro _ ⟨⟩) (by rintro ⟨⟩) hcontext)

/-- Over every interleaving, the slots are exclusive and no printed line is mixed. -/
theorem always_slotsExclusive [DecidableEq P] (actions : List (LogAction P)) :
    Always step SlotsExclusive (init : LogFields P) actions :=
  always_of_invariant (fun _ _ _ h hs => h.step hs) (fun _ h => h.slotsExclusive) sound_init

end LogFields

end GeminiNOS

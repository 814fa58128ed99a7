import Mathlib.Logic.Function.Basic
import GeminiNOS.Basic
import GeminiNOS.Foundations.Run

/-! # The log buffer

Producers take a ticket from the write index, claim the slot of that ticket with a
compare-exchange, write their line into it and mark it ready. The consumer prints
what is ready at its read index. Every atomic operation is a step of its own, and so
are the writing and the printing of a line. The read index is the consumer's own and
moves together with the store before it.
-/

namespace GeminiNOS

open Foundations

/-- `LOG_BUFFER_SIZE` -/
def logBufferSize : ℕ := 1024

/-- `LOG_MSG_MAX` -/
def logMsgMax : ℕ := 256

/-- `MAX_COMP_ID` -/
def maxCompId : ℕ := 256

/-- The log levels `nos_log_level_t`. -/
inductive NosLogLevel where
  | debug
  | info
  | warn
  | error
  deriving DecidableEq, Repr

def NosLogLevel.val : NosLogLevel → ℕ
  | .debug => 0
  | .info => 1
  | .warn => 2
  | .error => 3

/-- `level_to_str` -/
def levelToStr : NosLogLevel → String
  | .debug => "DEBUG"
  | .info => "INFO "
  | .warn => "WARN "
  | .error => "ERROR"

/-- The states of a slot, the values 0, 1 and 2 of `ready`. -/
inductive SlotState where
  | empty
  | writing
  | ready
  deriving DecidableEq, Repr

/-- What a call of `nos_log_impl` writes: the time as it is formatted, and the formatted message. -/
structure LogLine where
  level : NosLogLevel
  compId : ℕ
  timeStr : String
  message : String
  deriving DecidableEq, Repr

/-- A line as it fits into a slot (`vsnprintf`). -/
def LogLine.cut (line : LogLine) : LogLine :=
  { line with message := String.ofList (line.message.toList.take (logMsgMax - 1)) }

/-- A slot `nos_log_entry_t`, with the ticket of the producer that has claimed it last. -/
structure NosLogEntry where
  line : LogLine
  ready : SlotState
  ticket : ℕ
  deriving DecidableEq, Repr

/-- `nos_comp_info_t` -/
structure NosCompInfo where
  name : String
  filterLevel : NosLogLevel
  isRegistered : Bool
  deriving DecidableEq, Repr

/-- The parts of a printed line. -/
structure PrintedLine where
  timeStr : String
  level : String
  name : String
  message : String
  deriving DecidableEq, Repr

/-- Where a producer stands in `nos_log_impl`: before the step that the name says. From the
`atomic_fetch_add` on it has a slot index and a ticket. -/
inductive LogPc where
  | idle
  | fetchAdd (line : LogLine)
  | cas (idx ticket : ℕ) (line : LogLine)
  | drop
  | write (idx ticket : ℕ) (line : LogLine)
  | store (idx ticket : ℕ)
  deriving DecidableEq, Repr

/-- The ticket of a producer that has yet to publish its line. -/
def LogPc.ticket : LogPc → Option ℕ
  | .cas _ ticket _ | .write _ ticket _ | .store _ ticket => some ticket
  | _ => none

/-- The ticket of a producer that has claimed its slot. -/
def LogPc.claimed : LogPc → Option ℕ
  | .write _ ticket _ | .store _ ticket => some ticket
  | _ => none

/-- Where the consumer stands in `nos_log_consumer_thread`. -/
inductive LogConsumerPc where
  | loadRunning
  | loadLast
  | load
  | print
  | clear
  | stopped
  deriving DecidableEq, Repr

/-- The context `nos_log_context_t` with the producers and the consumer. The history of it: the
lines in the order of their tickets, the number of lines that have been taken out, and what has
been printed, with tickets. -/
structure NosLogContext (P : Type*) where
  ring : ℕ → NosLogEntry
  writeIdx : ℕ
  readIdx : ℕ
  globalFilterLevel : NosLogLevel
  compInfo : ℕ → NosCompInfo
  droppedCount : ℕ
  keepRunning : Bool
  producer : P → LogPc
  consumer : LogConsumerPc
  lines : List LogLine
  read : ℕ
  printed : List (ℕ × PrintedLine)

/-- The start of a call of `nos_log_impl`, the next step of a call or of the consumer, the settings,
and the end of the log. -/
inductive LogAction (P : Type*) where
  | log (p : P) (line : LogLine)
  | produce (p : P)
  | consume
  | setFilterLevel (level : NosLogLevel)
  | setCompLevel (compId : ℕ) (level : NosLogLevel)
  | setCompInfo (compId : ℕ) (name : String)
  | deinit

namespace NosLogContext

variable {P : Type*}

/-- The context after `nos_log_init`. -/
def init : NosLogContext P where
  ring _ := ⟨⟨.debug, 0, "", ""⟩, .empty, 0⟩
  writeIdx := 0
  readIdx := 0
  globalFilterLevel := .debug
  compInfo _ := ⟨"", .debug, false⟩
  droppedCount := 0
  keepRunning := true
  producer _ := .idle
  consumer := .loadRunning
  lines := []
  read := 0
  printed := []

/-- The component has an entry in `comp_info`. -/
def Registered (s : NosLogContext P) (compId : ℕ) : Prop :=
  0 < compId ∧ compId < maxCompId ∧ (s.compInfo compId).isRegistered = true

instance (s : NosLogContext P) (compId : ℕ) : Decidable (s.Registered compId) :=
  inferInstanceAs (Decidable (_ ∧ _))

/-- The level below which `nos_log_impl` drops a line. -/
def filterLevel (s : NosLogContext P) (compId : ℕ) : NosLogLevel :=
  if s.Registered compId then (s.compInfo compId).filterLevel else s.globalFilterLevel

def printLine (s : NosLogContext P) (line : LogLine) : PrintedLine where
  timeStr := line.timeStr
  level := levelToStr line.level
  name := if s.Registered line.compId then (s.compInfo line.compId).name else "System"
  message := line.message

def readSlot (s : NosLogContext P) : NosLogEntry := s.ring (s.readIdx % logBufferSize)

def setSlot (s : NosLogContext P) (idx : ℕ) (entry : NosLogEntry) : NosLogContext P :=
  { s with ring := Function.update s.ring idx entry }

def setCompInfo (s : NosLogContext P) (compId : ℕ) (info : NosCompInfo) : NosLogContext P :=
  { s with compInfo := Function.update s.compInfo compId info }

section

variable [DecidableEq P]

def setProducer (s : NosLogContext P) (p : P) (pc : LogPc) : NosLogContext P :=
  { s with producer := Function.update s.producer p pc }

def produce (s : NosLogContext P) (p : P) : Option (NosLogContext P) :=
  match s.producer p with
  | .idle => none
  | .fetchAdd line =>
    some ({ s with
      writeIdx := u32 (s.writeIdx + 1)
      lines := s.lines ++ [line] }.setProducer p
        (.cas (s.writeIdx % logBufferSize) s.lines.length line))
  | .cas idx ticket line =>
    if (s.ring idx).ready = .empty then
      some ((s.setSlot idx { s.ring idx with ready := .writing, ticket := ticket }).setProducer p
        (.write idx ticket line))
    else some (s.setProducer p .drop)
  | .drop => some ({ s with droppedCount := u64 (s.droppedCount + 1) }.setProducer p .idle)
  | .write idx ticket line =>
    some ((s.setSlot idx { s.ring idx with line := line.cut }).setProducer p (.store idx ticket))
  | .store idx _ =>
    some ((s.setSlot idx { s.ring idx with ready := .ready }).setProducer p .idle)

end

def consume (s : NosLogContext P) : Option (NosLogContext P) :=
  match s.consumer with
  | .loadRunning => some { s with consumer := if s.keepRunning then .load else .loadLast }
  | .loadLast => some { s with consumer := if s.readSlot.ready = .ready then .load else .stopped }
  | .load => some { s with consumer := if s.readSlot.ready = .ready then .print else .loadRunning }
  | .print => some { s with
      printed := s.printed ++ [(s.readSlot.ticket, s.printLine s.readSlot.line)]
      consumer := .clear }
  | .clear => some { s with
      ring := Function.update s.ring (s.readIdx % logBufferSize) { s.readSlot with ready := .empty }
      readIdx := u32 (s.readIdx + 1)
      read := s.read + 1
      consumer := .loadRunning }
  | .stopped => none

/-- One step. A line below the filter level takes no ticket. -/
def step [DecidableEq P] (s : NosLogContext P) : LogAction P → Option (NosLogContext P)
  | .log p line =>
    if s.producer p ≠ .idle then none
    else if line.level.val < (s.filterLevel line.compId).val then some s
    else some (s.setProducer p (.fetchAdd line))
  | .produce p => s.produce p
  | .consume => s.consume
  | .setFilterLevel level => some { s with globalFilterLevel := level }
  | .setCompLevel compId level =>
    if compId = 0 ∨ maxCompId ≤ compId then some s
    else some (s.setCompInfo compId { s.compInfo compId with filterLevel := level })
  | .setCompInfo compId name =>
    if compId = 0 ∨ maxCompId ≤ compId then some s
    else some (s.setCompInfo compId
      ⟨String.ofList (name.toList.take 31), s.globalFilterLevel, true⟩)
  | .deinit => some { s with keepRunning := false }

/-- What has been printed for a ticket is the line of its producer. -/
def Prints (s : NosLogContext P) (out : ℕ × PrintedLine) : Prop :=
  ∃ line, s.lines[out.1]? = some line ∧ out.2.timeStr = line.timeStr ∧
    out.2.level = levelToStr line.level ∧ out.2.message = line.cut.message

/-- What the log is to guarantee. Lines are printed in the order of their tickets, and when some
line is ready and no producer is between its ticket and its publication, the consumer finds a
line. -/
structure LinesInOrder (s : NosLogContext P) : Prop where
  prints : ∀ out ∈ s.printed, s.Prints out
  inOrder : (s.printed.map Prod.fst).Pairwise (· < ·)
  progress : (∃ idx < logBufferSize, (s.ring idx).ready = .ready) →
    (∀ p, (s.producer p).ticket = none) → s.readSlot.ready = .ready

/-- The condition on a step. A producer comes to its slot within one round of the consumer. -/
def ClaimsInTime (s : NosLogContext P) : LogAction P → Prop
  | .produce p => ∀ idx ticket line, s.producer p = .cas idx ticket line →
    ticket < s.read + logBufferSize
  | _ => True

end NosLogContext

end GeminiNOS

import GeminiNOS.Basic
import GeminiNOS.Foundations.CMemory
import GeminiNOS.Foundations.Run

/-! # The line editor

The command line reads one byte after the other and edits a line in a buffer of its caller.
A tab completes the line, an up-arrow replaces it by a former one, and the loop goes on
while the line has room.
-/

namespace GeminiNOS

open Foundations

/-- `MAX_HISTORY` -/
def maxHistory : ℕ := 3

/-- `g_history`: strings that fit their arrays. -/
structure CliHistory where
  entries : List Bytes
  length_le : entries.length ≤ maxHistory
  entry_length : ∀ e ∈ entries, e.length ≤ 255
  no_nul : ∀ e ∈ entries, 0 ∉ e

/-- `history_add` -/
def CliHistory.add (h : CliHistory) (cmd : Bytes) (hcmd : 0 ∉ cmd) : CliHistory :=
  if cmd = [] ∨ h.entries.head? = some cmd then h
  else
    { entries := (cmd.take 255 :: h.entries).take maxHistory
      length_le := List.length_take_le _ _
      entry_length := fun e he => by
        rcases List.mem_cons.mp (List.mem_of_mem_take he) with rfl | he
        · exact List.length_take_le _ _
        · exact h.entry_length e he
      no_nul := fun e he => by
        rcases List.mem_cons.mp (List.mem_of_mem_take he) with rfl | he
        · exact fun hmem => hcmd (List.mem_of_mem_take hmem)
        · exact h.no_nul e he }

def ascii (s : String) : Bytes := s.toList.map Char.toUInt8

/-- The names in `g_cli_cmds`. -/
def cliCmds : List Bytes :=
  ["help", "show components", "show services", "show db", "show memory", "show ipc", "clear ipc",
    "log", "perf start", "perf remote", "load", "unload", "reload", "quit"].map ascii

def logLevels : List Bytes := ["DEBUG", "INFO", "WARN", "ERROR"].map ascii

def logArgs : List Bytes := ["stats", "level", "spam"].map ascii

def perfArgs : List Bytes := ["start", "remote"].map ascii

def showArgs : List Bytes := ["components", "services", "db", "memory", "ipc"].map ascii

def clearArgs : List Bytes := ["ipc"].map ascii

/-- `strncmp(s, t, n) == 0` -/
def strncmpEq (n : ℕ) (s t : Bytes) : Bool := s.take n = t.take n

/-- `strrchr(line, ' ')` -/
def lastSpace (line : Bytes) : Option ℕ :=
  (line.reverse.findIdx? (· = 32)).map fun i => line.length - 1 - i

/-- The suggestions for the argument behind a space, or none after a hint. -/
def argSuggestions (names : List Bytes) (line : Bytes) (space argLen : ℕ) : Option (List Bytes) :=
  let matching := fun args : List Bytes =>
    args.filter fun arg => strncmpEq argLen arg (line.drop (space + 1))
  if strncmpEq 4 line (ascii "log ") then
    if line = ascii "log level " then none
    else if strncmpEq 10 line (ascii "log level ") then some (matching logLevels)
    else if space = 3 then some (matching logArgs)
    else some []
  else if strncmpEq 5 line (ascii "perf ") then
    if line = ascii "perf start " ∨ line = ascii "perf remote " then none
    else some (matching perfArgs)
  else if strncmpEq 5 line (ascii "show ") then some (matching showArgs)
  else if strncmpEq 6 line (ascii "clear ") then some (matching clearArgs)
  else if strncmpEq 5 line (ascii "load ") ∨ strncmpEq 7 line (ascii "unload ") ∨
      strncmpEq 7 line (ascii "reload ") then some (matching names)
  else some []

/-- The suggestions for a line of a length, with how much of them the line has, or none after a
hint. -/
def suggestions (names : List Bytes) (line : Bytes) (pos : ℕ) : Option (List Bytes × ℕ) :=
  match cliCmds.filter (strncmpEq pos · line), lastSpace line with
  | [], some space =>
    (argSuggestions names line space (pos - (space + 1))).map (·, pos - (space + 1))
  | cmds, _ => some (cmds, pos)

/-- The text that completes a line, if there is only one suggestion. -/
def completion (names : List Bytes) (line : Bytes) (pos : ℕ) : Option Bytes :=
  match suggestions names line pos with
  | some ([suggestion], matchLen) => some (suggestion.drop matchLen)
  | _ => none

abbrev KeyByte := {c : UInt8 // c ≠ 0}

/-- What a byte is for outside an escape sequence. -/
inductive LineKey where
  | newline
  | escape
  | erase
  | tab
  | char
  deriving DecidableEq, Repr

def lineKey (c : UInt8) : LineKey :=
  if c = 10 ∨ c = 13 then .newline
  else if c = 27 then .escape
  else if c = 127 ∨ c = 8 then .erase
  else if c = 9 then .tab
  else .char

/-- Where `advanced_get_line` stands: before a byte outside or inside an escape sequence, or at its
end. -/
inductive LinePc where
  | reading
  | escape
  | sequence (c : UInt8)
  | returned
  deriving DecidableEq, Repr

/-- What the editor is called with: the size of the buffer, the history, and the names of the loaded
components. -/
structure LineContext where
  size : ℤ
  one_lt_size : 1 < size
  history : CliHistory
  names : List Bytes
  names_no_nul : ∀ name ∈ names, 0 ∉ name

/-- The variables of `advanced_get_line`, and the ranges of the buffer that have been written. -/
structure LineEditor where
  buf : CMemory
  pos : ℤ
  hIdx : ℤ
  pc : LinePc
  writes : List (ℤ × ℤ)

namespace LineEditor

def store (s : LineEditor) (addr : ℤ) (bytes : Bytes) : LineEditor :=
  { s with buf := s.buf.store addr bytes, writes := s.writes ++ [(addr, addr + bytes.length)] }

/-- `strcpy` to an address, and the end of the line after it. -/
def strcpy (s : LineEditor) (addr : ℤ) (text : Bytes) : LineEditor :=
  let s := s.store addr (text ++ [0])
  { s with pos := (s.buf.str (addr + text.length)).length }

/-- `handle_tab_completion` -/
def handleTabCompletion (ctx : LineContext) (s : LineEditor) : LineEditor :=
  let s := s.store s.pos [0]
  match completion ctx.names (s.buf.str s.pos) s.pos.toNat with
  | some text => s.strcpy s.pos text
  | none => s

/-- The entry of the history that an up-arrow brings back. -/
def recalled (ctx : LineContext) (s : LineEditor) : Option Bytes :=
  if 0 < ctx.history.entries.length ∧ s.hIdx < ctx.history.entries.length - 1 then
    some (ctx.history.entries.getD (s.hIdx + 1).toNat [])
  else none

def recallHistory (ctx : LineContext) (s : LineEditor) : LineEditor :=
  match s.recalled ctx with
  | some entry => { s.strcpy 0 entry with hIdx := s.hIdx + 1 }
  | none => s

def next (ctx : LineContext) (s : LineEditor) : LineEditor :=
  { s with pc := if s.pos < ctx.size - 1 then .reading else .returned }

def key (ctx : LineContext) (s : LineEditor) (c : UInt8) : LineEditor :=
  match lineKey c with
  | .newline => { s.store s.pos [0] with pc := .returned }
  | .escape => { s with pc := .escape }
  | .erase => (if 0 < s.pos then { s with pos := s.pos - 1 } else s).next ctx
  | .tab => (s.handleTabCompletion ctx).next ctx
  | .char => next ctx { s.store s.pos [c] with pos := s.pos + 1 }

/-- One read: a byte, or the end of the input. -/
def step (ctx : LineContext) (s : LineEditor) (input : Option KeyByte) : Option LineEditor :=
  match s.pc, input with
  | .reading, some c => some (s.key ctx c)
  | .reading, none => some { s with pos := -1, pc := .returned }
  | .escape, some c => some { s with pc := .sequence c }
  | .sequence c, some c' => some ((if c = 91 ∧ c'.1 = 65 then s.recallHistory ctx else s).next ctx)
  | .escape, none => some { s with pc := .returned }
  | .sequence _, none => some { s with pc := .returned }
  | .returned, _ => none

/-- The editor when it is called, with whatever is in the buffer. -/
def start (ctx : LineContext) (buf : CMemory) : LineEditor :=
  next ctx ⟨buf, 0, -1, .reading, []⟩

/-- The law of the editor: it writes inside the buffer, its position stays inside, unless the input
has ended, and the line that it returns is terminated. -/
structure InBounds (ctx : LineContext) (s : LineEditor) : Prop where
  writes : ∀ w ∈ s.writes, 0 ≤ w.1 ∧ w.2 ≤ ctx.size
  pos : 0 ≤ s.pos ∧ s.pos ≤ ctx.size - 1 ∨ s.pc = .returned ∧ s.pos = -1
  terminated : s.pc = .returned → 0 ≤ s.pos → s.buf s.pos = 0

/-- The condition on a byte. A completion and an entry of the history fit the buffer, a character
that fills it finds a zero at its end, and so does the end of the input inside an escape sequence at
the end of the line. -/
def Fits (ctx : LineContext) (s : LineEditor) (input : Option KeyByte) : Prop :=
  match s.pc, input with
  | .reading, some c =>
    match lineKey c with
    | .tab => ∀ text, completion ctx.names ((s.buf.store s.pos [0]).str s.pos) s.pos.toNat =
        some text → s.pos + text.length ≤ ctx.size - 1
    | .char => s.pos + 1 = ctx.size - 1 → s.buf (ctx.size - 1) = 0
    | _ => True
  | .sequence c, some c' => c = 91 ∧ c'.1 = 65 → ∀ entry, s.recalled ctx = some entry →
      (entry.length : ℤ) ≤ ctx.size - 1
  | .escape, none => s.buf s.pos = 0
  | .sequence _, none => s.buf s.pos = 0
  | _, _ => True

end LineEditor

end GeminiNOS

import GeminiNOS.Cli.LineBounds
import GeminiNOS.Cli.Shell

/-! # The prompt

On a terminal the thread of the command line reads one byte after the other into the buffer
of its line editor, which is the same for all lines. To its user the prompt is a line of
text that grows and shrinks at its end, until it is entered. As long as the editor keeps to
its buffer the thread does what this prompt does, whatever the buffer holds besides.
-/

namespace GeminiNOS

open Foundations

abbrev LoadedNames := List CliCall → {names : List Bytes // ∀ name ∈ names, 0 ∉ name}

/-- What has been carried out, the line, how many lines have been brought back for it, and how much
of an escape sequence has been typed. Beside them the lines that have been entered. -/
structure Prompt where
  shell : CliShell
  line : CliLine
  recalls : ℕ
  pc : LinePc
  entered : List CliLine

namespace Prompt

theorem nil_fits : 0 ∉ ([] : Bytes) ∧ ([] : Bytes).length ≤ 255 := ⟨List.not_mem_nil, Nat.zero_le _⟩

def noLine : CliLine := ⟨[], nil_fits⟩

def start (logOps : Bool) : Prompt := ⟨.init logOps, noLine, 0, .reading, []⟩

/-- The line is carried out, and an empty one begins. -/
def enter (p : Prompt) : Option Prompt :=
  (p.shell.step p.line).map fun shell =>
    ⟨shell, noLine, 0, .reading, p.entered ++ [p.line]⟩

/-- The end of an edit. A line that is full is entered. -/
def turn (p : Prompt) : Option Prompt :=
  if p.line.1.length < 255 then some { p with pc := .reading } else p.enter

def append (p : Prompt) (text : Bytes) : Option Prompt :=
  if h : 0 ∉ p.line.1 ++ text ∧ (p.line.1 ++ text).length ≤ 255 then
    some { p with line := ⟨p.line.1 ++ text, h⟩ }
  else none

def erase (p : Prompt) : Prompt :=
  { p with
    line := ⟨p.line.1.dropLast, fun h => p.line.2.1 (List.mem_of_mem_dropLast h), by
      have := p.line.2.2
      rw [List.length_dropLast]
      omega⟩ }

/-- The next older line of the history takes the place of the line, if there is one. -/
def recallHistory (p : Prompt) : Prompt :=
  if h : p.recalls < p.shell.history.entries.length then
    { p with
      line := ⟨p.shell.history.entries[p.recalls], p.shell.history.no_nul _ (List.getElem_mem h),
        p.shell.history.entry_length _ (List.getElem_mem h)⟩
      recalls := p.recalls + 1 }
  else p

/-- A byte outside an escape sequence. A tab completes the line, if it can only mean one thing. -/
def key (names : LoadedNames) (p : Prompt) (c : UInt8) : Option Prompt :=
  match lineKey c with
  | .newline => p.enter
  | .escape => some { p with pc := .escape }
  | .erase => p.erase.turn
  | .tab =>
    (p.append ((completion (names p.shell.calls).1 p.line.1 p.line.1.length).getD [])).bind turn
  | .char => (p.append [c]).bind turn

/-- One read. The end of the input ends the prompt, and inside an escape sequence it enters the
line. -/
def step (names : LoadedNames) (p : Prompt) (input : Option KeyByte) : Option Prompt :=
  if p.shell.running then
    match p.pc, input with
    | .reading, some c => p.key names c
    | .reading, none => some { p with pc := .returned }
    | .escape, some c => some { p with pc := .sequence c }
    | .sequence c, some c' => (if c = 91 ∧ c'.1 = 65 then p.recallHistory else p).turn
    | .escape, none => p.enter
    | .sequence _, none => p.enter
    | .returned, _ => none
  else none

variable {names : LoadedNames} {p p' : Prompt}

def Remembers (p : Prompt) : Prop := p.shell.Remembers p.entered

theorem Remembers.enter (h : p.Remembers) (hs : p.enter = some p') : p'.Remembers := by
  obtain ⟨shell, hstep, rfl⟩ := Option.map_eq_some_iff.mp hs
  exact CliShell.Remembers.step h hstep

theorem Remembers.turn (h : p.Remembers) (hs : p.turn = some p') : p'.Remembers := by
  unfold Prompt.turn at hs
  split at hs
  · obtain rfl := Option.some.inj hs
    exact h
  · exact h.enter hs

theorem Remembers.append {text : Bytes} (h : p.Remembers)
    (hs : (p.append text).bind Prompt.turn = some p') : p'.Remembers := by
  obtain ⟨q, hq, hs⟩ := Option.bind_eq_some_iff.mp hs
  unfold Prompt.append at hq
  split at hq
  · obtain rfl := Option.some.inj hq
    exact Remembers.turn (p := { p with line := ⟨p.line.1 ++ text, _⟩ }) h hs
  · cases hq

theorem Remembers.recallHistory (h : p.Remembers) : p.recallHistory.Remembers := by
  unfold Prompt.recallHistory
  split
  · exact h
  · exact h

theorem Remembers.key {c : UInt8} (h : p.Remembers) (hs : p.key names c = some p') :
    p'.Remembers := by
  unfold Prompt.key at hs
  split at hs
  · exact h.enter hs
  · obtain rfl := Option.some.inj hs
    exact h
  · exact Remembers.turn (p := p.erase) h hs
  · exact h.append hs
  · exact h.append hs

theorem Remembers.step {input : Option KeyByte} (h : p.Remembers)
    (hs : p.step names input = some p') : p'.Remembers := by
  unfold Prompt.step at hs
  split at hs
  · split at hs
    · exact h.key hs
    · obtain rfl := Option.some.inj hs
      exact h
    · obtain rfl := Option.some.inj hs
      exact h
    · refine Remembers.turn ?_ hs
      split
      · exact h.recallHistory
      · exact h
    · exact h.enter hs
    · exact h.enter hs
    · cases hs
  · cases hs

end Prompt

/-- The thread of the command line on a terminal, with its editor. -/
structure CliThread where
  shell : CliShell
  editor : LineEditor

namespace CliThread

theorem one_lt_size : (1 : ℤ) < 256 := by decide

def context (names : LoadedNames) (shell : CliShell) : LineContext where
  size := 256
  one_lt_size := one_lt_size
  history := shell.history
  names := (names shell.calls).1
  names_no_nul := (names shell.calls).2

/-- The string in the buffer. One that does not end there is undefined. -/
def line (buf : CMemory) : Option CliLine :=
  if h : (buf.str 256).length ≤ 255 then
    some ⟨buf.str 256, fun hmem => by simpa using List.mem_takeWhile_imp hmem, h⟩
  else none

/-- What follows a read: a line that is returned is carried out, unless it is empty, and the editor
is called again. -/
def afterRead (names : LoadedNames) (shell : CliShell) (e : LineEditor) : Option CliThread :=
  if e.pc = .returned ∧ 0 ≤ e.pos then
    if e.pos = 0 then some ⟨shell, .start (context names shell) e.buf⟩
    else (line e.buf).bind fun l => (shell.step l).map fun shell' =>
      ⟨shell', .start (context names shell') e.buf⟩
  else some ⟨shell, e⟩

/-- One read in the loop of `node_cli_thread_entry`. -/
def step (names : LoadedNames) (s : CliThread) (input : Option KeyByte) : Option CliThread :=
  if s.shell.running then
    (s.editor.step (context names s.shell) input).bind (afterRead names s.shell)
  else none

/-- The thread when it begins, with whatever is in its buffer. -/
def start (names : LoadedNames) (logOps : Bool) (buf : CMemory) : CliThread :=
  ⟨.init logOps, .start (context names (.init logOps)) buf⟩

/-- The condition on a byte is that of the editor. -/
def Fits (names : LoadedNames) (s : CliThread) (input : Option KeyByte) : Prop :=
  s.editor.Fits (context names s.shell) input

instance (names : LoadedNames) (s : CliThread) (input : Option KeyByte) :
    Decidable (s.Fits names input) := by
  unfold Fits LineEditor.Fits
  cases s.editor.pc with
  | reading =>
    cases input with
    | none => exact inferInstanceAs (Decidable True)
    | some c =>
      dsimp only
      cases lineKey c.1 with
      | tab => exact inferInstanceAs (Decidable (∀ text ∈ completion _ _ _, _))
      | char => exact inferInstanceAs (Decidable (_ → _))
      | newline | escape | erase => exact inferInstanceAs (Decidable True)
  | escape =>
    cases input with
    | none => exact inferInstanceAs (Decidable (_ = _))
    | some c => exact inferInstanceAs (Decidable True)
  | sequence c =>
    cases input with
    | none => exact inferInstanceAs (Decidable (_ = _))
    | some c' => exact inferInstanceAs (Decidable (_ → ∀ entry ∈ LineEditor.recalled _ _, _))
  | returned => exact inferInstanceAs (Decidable True)

end CliThread

namespace LineEditor

variable {ctx : LineContext} {e : LineEditor} {line text : Bytes} {addr : ℤ} {recalls : ℕ}

/-- The editor has a line, and has brought back so many. -/
structure Has (e : LineEditor) (line : Bytes) (recalls : ℕ) : Prop where
  pos : e.pos = line.length
  load : e.buf.load e.pos = line
  hIdx : e.hIdx + 1 = recalls

theorem Has.noNul {line : CliLine} (h : e.Has line.1 recalls) : e.buf.NoNul e.pos :=
  .of_load (h.load.symm ▸ line.2.1)

theorem Has.setPc (h : e.Has line recalls) (pc : LinePc) :
    LineEditor.Has { e with pc := pc } line recalls := ⟨h.pos, h.load, h.hIdx⟩

theorem Has.terminate (h : e.Has line recalls) : (e.store e.pos [0]).Has line recalls :=
  ⟨h.pos, (CMemory.load_store_of_le (Int.le_refl _)).trans h.load, h.hIdx⟩

/-- What `strcpy` leaves up to its end. -/
theorem load_strcpy (haddr : 0 ≤ addr) : (e.strcpy addr text).buf.load (addr + text.length) =
    e.buf.load addr ++ text := by
  rw [← CMemory.load_store haddr]
  exact CMemory.load_congr fun _ _ hlt => CMemory.store_concat_of_lt hlt

theorem Has.erase (h : e.Has line recalls) :
    (if 0 < e.pos then { e with pos := e.pos - 1 } else e).Has line.dropLast recalls := by
  have hpos := h.pos
  split
  · constructor
    · rw [List.length_dropLast]
      dsimp only
      omega
    · show e.buf.load (e.pos - 1) = _
      rw [CMemory.load_of_le (show e.pos - 1 ≤ e.pos by omega), h.load, List.dropLast_eq_take]
      congr 1
      omega
    · exact h.hIdx
  · obtain rfl : line = [] := List.length_eq_zero_iff.mp (by omega)
    exact h

theorem Has.char (h : e.Has line recalls) (c : UInt8) :
    LineEditor.Has { e.store e.pos [c] with pos := e.pos + 1 } (line ++ [c]) recalls := by
  have hpos := h.pos
  constructor
  · rw [List.length_append, List.length_singleton]
    dsimp only
    omega
  · have hload : (e.buf.store e.pos [c]).load (e.pos + [c].length) = e.buf.load e.pos ++ [c] :=
      CMemory.load_store (by omega)
    rw [h.load] at hload
    exact hload
  · exact h.hIdx

theorem Has.completion_eq {line : CliLine} (h : e.Has line.1 recalls) (names : List Bytes) :
    completion names ((e.buf.store e.pos [0]).str e.pos) e.pos.toNat =
      completion names line.1 line.1.length := by
  have hnul : (e.buf.store e.pos [0]).NoNul e.pos := h.noNul.store_of_le (Int.le_refl _)
  rw [hnul.str_eq.trans h.terminate.load, h.pos, Int.toNat_natCast]

/-- A tab puts the completion behind the line, if there is one, and a zero behind that. -/
theorem Has.tab {line : CliLine} (h : e.Has line.1 recalls) (ctx : LineContext) :
    (e.handleTabCompletion ctx).Has
        (line.1 ++ (completion ctx.names line.1 line.1.length).getD []) recalls ∧
      (e.handleTabCompletion ctx).buf (e.handleTabCompletion ctx).pos = 0 := by
  have hpos := h.pos
  have hnul : (e.store e.pos [0]).buf.NoNul e.pos := h.noNul.store_of_le (Int.le_refl _)
  have hload : (e.store e.pos [0]).buf.load e.pos = line.1 := h.terminate.load
  rw [← h.completion_eq]
  cases hcompletion : completion ctx.names ((e.buf.store e.pos [0]).str e.pos) e.pos.toNat with
  | none =>
    rw [handleTabCompletion_of_none hcompletion, Option.getD_none, List.append_nil]
    exact ⟨h.terminate, @CMemory.store_concat e.buf e.pos e.pos [] 0 (by simp)⟩
  | some text =>
    have htext := no_nul_of_completion ctx.names_no_nul hcompletion
    obtain ⟨hend, -, hzero⟩ := strcpy_spec (s := e.store e.pos [0]) (by omega) hnul htext
    rw [handleTabCompletion_of_some hcompletion, Option.getD_some]
    refine ⟨⟨?_, ?_, h.hIdx⟩, hend ▸ hzero⟩
    · rw [hend, List.length_append]
      push_cast
      omega
    · rw [hend, load_strcpy (by omega), hload]

theorem Has.recallHistory (h : e.Has line recalls) {entry : Bytes}
    (hrecalled : e.recalled ctx = some entry) :
    (e.recallHistory ctx).Has entry (recalls + 1) ∧
      (e.recallHistory ctx).buf (e.recallHistory ctx).pos = 0 := by
  have hidx := h.hIdx
  obtain ⟨hend, -, hzero⟩ := strcpy_spec (s := e) (Int.le_refl 0)
    (fun i hi hlt => absurd hlt (Int.not_lt.mpr hi)) (no_nul_of_recalled hrecalled)
  unfold LineEditor.recallHistory
  rw [hrecalled]
  refine ⟨⟨?_, ?_, ?_⟩, ?_⟩
  · exact hend.trans (Int.zero_add _)
  · show (e.strcpy 0 entry).buf.load (e.strcpy 0 entry).pos = entry
    rw [hend, load_strcpy (Int.le_refl 0)]
    rfl
  · show e.hIdx + 1 + 1 = ((recalls + 1 : ℕ) : ℤ)
    omega
  · show (e.strcpy 0 entry).buf (e.strcpy 0 entry).pos = 0
    rw [hend, hzero]

theorem recalled_of_lt (ctx : LineContext) (h : e.hIdx + 1 = recalls)
    (hlt : recalls < ctx.history.entries.length) :
    e.recalled ctx = some ctx.history.entries[recalls] := by
  have hidx : (e.hIdx + 1).toNat = recalls := by omega
  rw [recalled, if_pos (by omega), hidx, List.getD_eq_getElem?_getD, List.getElem?_eq_getElem hlt,
    Option.getD_some]

theorem recalled_of_le (h : e.hIdx + 1 = recalls) (hle : ctx.history.entries.length ≤ recalls) :
    e.recalled ctx = none := if_neg (by omega)

end LineEditor

namespace CliThread

variable {names : LoadedNames} {s s' : CliThread} {p : Prompt} {e : LineEditor}
  {input : Option KeyByte}

/-- The thread does what the prompt does: what has been carried out is the same, and while a line is
edited, the editor has it. -/
structure Shows (s : CliThread) (p : Prompt) : Prop where
  shell : s.shell = p.shell
  pc : s.editor.pc = p.pc
  has : p.pc ≠ .returned → s.editor.Has p.line.1 p.recalls ∧ p.line.1.length < 255

theorem shows_start (shell : CliShell) (buf : CMemory) (entered : List CliLine) :
    Shows ⟨shell, .start (context names shell) buf⟩
      ⟨shell, Prompt.noLine, 0, .reading, entered⟩ where
  shell := rfl
  pc := rfl
  has _ := ⟨⟨rfl, rfl, rfl⟩, (by decide : 0 < 255)⟩

theorem line_of_nul {line : CliLine} {recalls : ℕ} (h : e.Has line.1 recalls)
    (hzero : e.buf e.pos = 0) : CliThread.line e.buf = some line := by
  have hpos := h.pos
  have hle := line.2.2
  have hstr : e.buf.str 256 = line.1 :=
    (h.noNul.str_of_nul hzero (by omega) (by omega)).trans h.load
  rw [CliThread.line, dif_pos (hstr ▸ hle)]
  exact congrArg some (Subtype.ext hstr)

theorem shows_of_editing {pc : LinePc} (hpc : pc ≠ .returned) (h : e.Has p.line.1 p.recalls)
    (hlt : p.line.1.length < 255) (hs : afterRead names p.shell { e with pc := pc } = some s') :
    s'.Shows { p with pc := pc } := by
  rw [afterRead, if_neg fun hand => hpc hand.1] at hs
  obtain rfl := Option.some.inj hs
  exact ⟨rfl, rfl, fun _ => ⟨h.setPc pc, hlt⟩⟩

theorem enter_of_returned (hrun : p.shell.running = true) (h : e.Has p.line.1 p.recalls)
    (hzero : e.buf e.pos = 0)
    (hs : afterRead names p.shell { e with pc := .returned } = some s') :
    ∃ p', p.enter = some p' ∧ s'.Shows p' := by
  have hpos := h.pos
  have hret : LinePc.returned = .returned ∧ 0 ≤ e.pos := ⟨rfl, by omega⟩
  rw [afterRead, if_pos hret] at hs
  split at hs
  case isTrue hempty =>
    have hempty : e.pos = 0 := hempty
    obtain rfl := Option.some.inj hs
    have hnil : p.line.1 = [] := List.length_eq_zero_iff.mp (by omega)
    have hstep : p.shell.step p.line = some p.shell := by
      rw [CliShell.step, hrun, if_neg (by simp), if_pos hnil]
    exact ⟨_, by rw [Prompt.enter, hstep, Option.map_some], shows_start _ _ _⟩
  case isFalse =>
    rw [line_of_nul h hzero, Option.bind_some] at hs
    obtain ⟨shell', hstep, rfl⟩ := Option.map_eq_some_iff.mp hs
    exact ⟨_, by rw [Prompt.enter, hstep, Option.map_some], shows_start _ _ _⟩

/-- The end of an edit. A line that fills the buffer has a zero behind it. -/
theorem turn_of_next (hrun : p.shell.running = true) (h : e.Has p.line.1 p.recalls)
    (hfull : p.line.1.length = 255 → e.buf e.pos = 0)
    (hs : afterRead names p.shell (e.next (context names p.shell)) = some s') :
    ∃ p', p.turn = some p' ∧ s'.Shows p' := by
  have hpos := h.pos
  have hsize : (context names p.shell).size = 256 := rfl
  have hle := p.line.2.2
  unfold LineEditor.next at hs
  rw [hsize] at hs
  unfold Prompt.turn
  split
  · rename_i hlt
    rw [if_pos (by omega)] at hs
    exact ⟨_, rfl, shows_of_editing (by rintro ⟨⟩) h hlt hs⟩
  · rename_i hge
    rw [if_neg (by omega)] at hs
    exact enter_of_returned hrun h (hfull (by omega)) hs

theorem append_of_next {text : Bytes} (hrun : p.shell.running = true) (htext : 0 ∉ text)
    (hroom : p.line.1.length + text.length ≤ 255) (h : e.Has (p.line.1 ++ text) p.recalls)
    (hfull : p.line.1.length + text.length = 255 → e.buf e.pos = 0)
    (hs : afterRead names p.shell (e.next (context names p.shell)) = some s') :
    ∃ p', (p.append text).bind Prompt.turn = some p' ∧ s'.Shows p' := by
  have hline : 0 ∉ p.line.1 ++ text ∧ (p.line.1 ++ text).length ≤ 255 := by
    rw [List.mem_append, not_or, List.length_append]
    exact ⟨⟨p.line.2.1, htext⟩, hroom⟩
  rw [Prompt.append, dif_pos hline, Option.bind_some]
  refine turn_of_next hrun h (fun hlen => hfull ?_) hs
  rwa [List.length_append] at hlen

theorem Shows.key (h : s.Shows p) (hrun : p.shell.running = true) (hpc : p.pc = .reading)
    {c : KeyByte} (hfits : s.Fits names (some c))
    (hs : afterRead names p.shell (s.editor.key (context names p.shell) c.1) = some s') :
    ∃ p', p.key names c.1 = some p' ∧ s'.Shows p' := by
  obtain ⟨hhas, hlt⟩ := h.has (by rw [hpc]; rintro ⟨⟩)
  have hpos := hhas.pos
  have hsize : (context names s.shell).size = 256 := rfl
  unfold Fits LineEditor.Fits at hfits
  rw [h.pc, hpc, hsize] at hfits
  dsimp only at hfits
  unfold LineEditor.key at hs
  unfold Prompt.key
  cases hkey : lineKey c.1 <;> rw [hkey] at hs hfits <;> dsimp only at hs hfits ⊢
  case newline =>
    exact enter_of_returned hrun hhas.terminate
      (@CMemory.store_concat s.editor.buf s.editor.pos s.editor.pos [] 0 (by simp)) hs
  case escape =>
    exact ⟨_, rfl, shows_of_editing (by rintro ⟨⟩) hhas hlt hs⟩
  case erase =>
    refine turn_of_next (p := p.erase) hrun hhas.erase (fun hlen => ?_) hs
    have hlen' : p.line.1.dropLast.length = 255 := hlen
    rw [List.length_dropLast] at hlen'
    omega
  case tab =>
    obtain ⟨hhas', hzero⟩ := hhas.tab (context names p.shell)
    have htext : 0 ∉ (completion (names p.shell.calls).1 p.line.1 p.line.1.length).getD [] ∧
        p.line.1.length +
          ((completion (names p.shell.calls).1 p.line.1 p.line.1.length).getD []).length ≤ 255 := by
      cases hcompletion : completion (names p.shell.calls).1 p.line.1 p.line.1.length with
      | none => exact ⟨List.not_mem_nil, hlt.le⟩
      | some text =>
        rw [h.shell] at hfits
        have hend := hfits text ((hhas.completion_eq _).trans hcompletion)
        rw [Option.getD_some]
        exact ⟨no_nul_of_completion (names p.shell.calls).2 hcompletion, by omega⟩
    exact append_of_next hrun htext.1 htext.2 hhas' (fun _ => hzero) hs
  case char =>
    refine append_of_next hrun (by simpa using c.2.symm) ?_ (hhas.char c.1) (fun hlen => ?_) hs
    · rw [List.length_singleton]
      omega
    · rw [List.length_singleton] at hlen
      show (s.editor.store s.editor.pos [c.1]).buf (s.editor.pos + 1) = 0
      have hbehind : (s.editor.buf.store s.editor.pos [c.1]) (s.editor.pos + 1) =
          s.editor.buf (s.editor.pos + 1) :=
        CMemory.store_of_le (by rw [List.length_singleton]; exact Int.le_refl _)
      have hend : s.editor.pos + 1 = 256 - 1 := by omega
      rw [hend] at hbehind ⊢
      exact hbehind.trans (hfits hend)

theorem Shows.sequence (h : s.Shows p) (hrun : p.shell.running = true) (hpc : p.pc ≠ .returned)
    (arrow : Prop) [Decidable arrow]
    (hs : afterRead names p.shell (LineEditor.next (context names p.shell)
      (if arrow then s.editor.recallHistory (context names p.shell) else s.editor)) = some s') :
    ∃ p', (if arrow then p.recallHistory else p).turn = some p' ∧ s'.Shows p' := by
  obtain ⟨hhas, hlt⟩ := h.has hpc
  split at hs
  · rename_i harrow
    rw [if_pos harrow]
    by_cases hmore : p.recalls < p.shell.history.entries.length
    · obtain ⟨hhas', hzero⟩ := hhas.recallHistory
        (LineEditor.recalled_of_lt (context names p.shell) hhas.hIdx hmore)
      rw [Prompt.recallHistory, dif_pos hmore]
      exact turn_of_next (p := { p with line := ⟨_, _⟩, recalls := _ }) hrun hhas'
        (fun _ => hzero) hs
    · rw [LineEditor.recallHistory,
        LineEditor.recalled_of_le hhas.hIdx (Nat.le_of_not_lt hmore)] at hs
      rw [Prompt.recallHistory, dif_neg hmore]
      exact turn_of_next hrun hhas (fun hfull => absurd hfull hlt.ne) hs
  · rename_i harrow
    rw [if_neg harrow]
    exact turn_of_next hrun hhas (fun hfull => absurd hfull hlt.ne) hs

theorem Shows.step (h : s.Shows p) (hfits : s.Fits names input)
    (hs : s.step names input = some s') : ∃ p', p.step names input = some p' ∧ s'.Shows p' := by
  unfold CliThread.step at hs
  unfold Prompt.step
  rw [h.shell] at hs
  split at hs
  case isFalse => cases hs
  rename_i hrun
  rw [if_pos hrun]
  obtain ⟨e, he, hs⟩ := Option.bind_eq_some_iff.mp hs
  -- Inside an escape sequence the end of the input enters the line.
  have henter : p.pc ≠ .returned → s.editor.buf s.editor.pos = 0 →
      some { s.editor with pc := .returned } = some e →
      ∃ p', p.enter = some p' ∧ s'.Shows p' := by
    rintro hpc hzero ⟨⟩
    exact enter_of_returned hrun (h.has hpc).1 hzero hs
  cases hpc : p.pc with
  | reading =>
    cases input with
    | none =>
      simp only [LineEditor.step, h.pc, hpc] at he
      obtain rfl := Option.some.inj he
      have hneg : ¬ (0 : ℤ) ≤ -1 := by decide
      rw [afterRead, if_neg fun hand => hneg hand.2] at hs
      obtain rfl := Option.some.inj hs
      exact ⟨_, rfl, rfl, rfl, fun hne => absurd rfl hne⟩
    | some c =>
      simp only [LineEditor.step, h.pc, hpc] at he
      obtain rfl := Option.some.inj he
      exact h.key hrun hpc hfits hs
  | escape =>
    have hne : p.pc ≠ .returned := by
      rw [hpc]
      rintro ⟨⟩
    unfold Fits LineEditor.Fits at hfits
    rw [h.pc, hpc] at hfits
    cases input with
    | none =>
      simp only [LineEditor.step, h.pc, hpc] at he
      exact henter hne hfits he
    | some c =>
      simp only [LineEditor.step, h.pc, hpc] at he
      obtain rfl := Option.some.inj he
      obtain ⟨hhas, hlt⟩ := h.has hne
      exact ⟨_, rfl, shows_of_editing (by rintro ⟨⟩) hhas hlt hs⟩
  | sequence c =>
    have hne : p.pc ≠ .returned := by
      rw [hpc]
      rintro ⟨⟩
    unfold Fits LineEditor.Fits at hfits
    rw [h.pc, hpc] at hfits
    cases input with
    | none =>
      simp only [LineEditor.step, h.pc, hpc] at he
      exact henter hne hfits he
    | some c' =>
      simp only [LineEditor.step, h.pc, hpc] at he
      obtain rfl := Option.some.inj he
      exact h.sequence hrun hne _ hs
  | returned =>
    simp only [LineEditor.step, h.pc, hpc] at he
    cases he

/-- The bytes of a text, none of which is zero. -/
def keys (text : Bytes) : List (Option KeyByte) :=
  text.filterMap fun c => if h : c ≠ 0 then some (some ⟨c, h⟩) else none

end CliThread

end GeminiNOS

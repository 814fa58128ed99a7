import GeminiNOS.Cli.LineEditor
import GeminiNOS.Foundations.AsciiText
import GeminiNOS.Log.LogBuffer
import Mathlib.Data.List.Destutter

/-! # The commands of the command line

A line is matched against the names of the commands, in the order of the table, and its
command gets what is behind a space. What the commands then do with it is collected as the
calls they make. The commands only name a call if it is defined: words that do not fit
their arrays and numbers that do not fit their type are undefined.
-/

namespace GeminiNOS

open Foundations AsciiText

inductive CliCall where
  | help
  | showComponents
  | showServices
  | showDb
  | showMemory
  | showIpc
  | clearIpc
  | logUsage
  | logStats
  | logSpam (count : ℕ)
  | levelUsage
  | noLogService
  | setFilterLevel (level : NosLogLevel)
  | setCompLevel (compId : ℕ) (level : NosLogLevel)
  | perfStart (count : ℕ)
  | perfRemote (count size : ℕ)
  | load (name : Bytes)
  | unload (name : Bytes)
  | reload (name : Bytes)
  | quit
  | nothing
  | unknown
  deriving DecidableEq

/-- The test of a line against a name in `node_cli_thread_entry`, and the arguments of the
command. -/
def cliMatch (name text : Bytes) : Option (Option Bytes) :=
  if text = name ∨ strncmpEq name.length text name = true ∧ text[name.length]? = some 32 then
    some (if text[name.length]? = some 32 then some (text.drop (name.length + 1)) else none)
  else none

def toLower (c : UInt8) : UInt8 := if 65 ≤ c ∧ c ≤ 90 then c + 32 else c

/-- `strcasecmp(s, t) == 0` -/
def strcasecmpEq (s t : Bytes) : Bool := s.map toLower = t.map toLower

/-- `str_to_level` -/
def strToLevel (str : Bytes) : NosLogLevel :=
  if strcasecmpEq str (ascii "debug") then .debug
  else if strcasecmpEq str (ascii "info") then .info
  else if strcasecmpEq str (ascii "warn") then .warn
  else if strcasecmpEq str (ascii "error") then .error
  else .info

/-- The value of a number as an `int`. -/
def asInt (n : ℤ) : Option ℤ := if -2 ^ 31 ≤ n ∧ n < 2 ^ 31 then some n else none

/-- The value of a number as a `uint32_t`. -/
def asUint32 (n : ℤ) : Option ℕ := if 0 ≤ n ∧ n < 2 ^ 32 then some n.toNat else none

/-- `(uint32_t)atoi(text)` -/
def atoiU32 (text : Bytes) : Option ℕ :=
  ((number text).elim (some 0) fun n => asInt n.1).map fun n => (n % 2 ^ 32).toNat

/-- The calls of `log level`, on the text behind it, with the arrays `sub` and `val` of 64 bytes. The
flag is whether `nos_embedded_service_get("SVC_LOG")` finds the log service. -/
def doLogLevel (logOps : Bool) (text : Bytes) : Option CliCall :=
  match word text with
  | none => some (if logOps then .levelUsage else .noLogService)
  | some (sub, rest) =>
    if 64 ≤ sub.length then none
    else
      match word rest with
      | none => some (if logOps then .setFilterLevel (strToLevel sub) else .noLogService)
      | some (val, _) =>
        if 64 ≤ val.length then none
        else if logOps then (atoiU32 sub).map fun compId => .setCompLevel compId (strToLevel val)
        else some .noLogService

/-- `do_log`. Behind the end of the line its buffer has what was there before. -/
def doLog (logOps : Bool) : Option Bytes → Option CliCall
  | none => some .logUsage
  | some args =>
    if strncmpEq 5 args (ascii "stats") then some .logStats
    else if strncmpEq 4 args (ascii "spam") then
      if args.length = 4 then some (.logSpam 2000) else (atoiU32 (args.drop 5)).map .logSpam
    else if strncmpEq 5 args (ascii "level") then
      if args.length = 5 then none else doLogLevel logOps (args.drop 6)
    else some .nothing

/-- `if (count == 0) count = 10000` -/
def countOrDefault (count : ℕ) : ℕ := if count = 0 then 10000 else count

/-- `do_perf_start` -/
def doPerfStart : Option Bytes → Option CliCall
  | none => some (.perfStart 10000)
  | some args => (atoiU32 args).map fun count => .perfStart (countOrDefault count)

/-- `do_perf_remote_start` -/
def doPerfRemoteStart : Option Bytes → Option CliCall
  | none => some (.perfRemote 10000 0)
  | some args =>
    match number args with
    | none => some (.perfRemote 10000 0)
    | some (count, rest) =>
      (asUint32 count).bind fun count =>
        ((number rest).elim (some 0) fun size => asUint32 size.1).map fun size =>
          .perfRemote (countOrDefault count) size

def doNamed (call : Bytes → CliCall) : Option Bytes → Option CliCall
  | none => some .nothing
  | some name => some (call name)

/-- `g_cli_cmds`, without the texts of the help. -/
def cliHandlers (logOps : Bool) : List (Bytes × (Option Bytes → Option CliCall)) :=
  [(ascii "help", fun _ => some .help),
    (ascii "show components", fun _ => some .showComponents),
    (ascii "show services", fun _ => some .showServices),
    (ascii "show db", fun _ => some .showDb),
    (ascii "show memory", fun _ => some .showMemory),
    (ascii "show ipc", fun _ => some .showIpc),
    (ascii "clear ipc", fun _ => some .clearIpc),
    (ascii "log", doLog logOps),
    (ascii "perf start", doPerfStart),
    (ascii "perf remote", doPerfRemoteStart),
    (ascii "load", doNamed .load),
    (ascii "unload", doNamed .unload),
    (ascii "reload", doNamed .reload),
    (ascii "quit", fun _ => some .quit)]

/-- The loop of `node_cli_thread_entry` over the commands: the first that matches runs. -/
def execute (logOps : Bool) (line : Bytes) : Option CliCall :=
  ((cliHandlers logOps).findSome? fun cmd => (cliMatch cmd.1 line).map cmd.2).getD (some .unknown)

theorem map_cliHandlers (logOps : Bool) : (cliHandlers logOps).map Prod.fst = cliCmds := rfl

def commandLine (name : Bytes) : Option Bytes → Bytes
  | none => name
  | some args => name ++ 32 :: args

def NosLogLevel.name : NosLogLevel → Bytes
  | .debug => ascii "DEBUG"
  | .info => ascii "INFO"
  | .warn => ascii "WARN"
  | .error => ascii "ERROR"

def CliCall.line (spell : NosLogLevel → Bytes) : CliCall → Bytes
  | .help => ascii "help"
  | .showComponents => ascii "show components"
  | .showServices => ascii "show services"
  | .showDb => ascii "show db"
  | .showMemory => ascii "show memory"
  | .showIpc => ascii "show ipc"
  | .clearIpc => ascii "clear ipc"
  | .logUsage => ascii "log"
  | .logStats => ascii "log stats"
  | .logSpam count => ascii "log spam " ++ decimal count
  | .levelUsage | .noLogService => ascii "log level "
  | .setFilterLevel level => ascii "log level " ++ spell level
  | .setCompLevel compId level => ascii "log level " ++ decimal compId ++ 32 :: spell level
  | .perfStart count => ascii "perf start " ++ decimal count
  | .perfRemote count size => ascii "perf remote " ++ decimal count ++ 32 :: decimal size
  | .load name => ascii "load " ++ name
  | .unload name => ascii "unload " ++ name
  | .reload name => ascii "reload " ++ name
  | .quit => ascii "quit"
  | .nothing => ascii "load"
  | .unknown => ascii "?"

/-- The call can be typed: it is that of a command, its numbers are as the command reads them, and
calls of the log service need the service. -/
def CliCall.Fits (logOps : Bool) : CliCall → Prop
  | .logSpam count => count < 2 ^ 31
  | .levelUsage | .setFilterLevel _ => logOps = true
  | .setCompLevel compId _ => compId < 2 ^ 31 ∧ logOps = true
  | .noLogService => logOps = false
  | .perfStart count => 0 < count ∧ count < 2 ^ 31
  | .perfRemote count size => 0 < count ∧ count < 2 ^ 32 ∧ size < 2 ^ 32
  | .unknown => False
  | _ => True

variable {name line : Bytes} {args : Option Bytes} {call : CliCall} {level : NosLogLevel}
  {logOps : Bool}

theorem cliMatch_eq_some : cliMatch name line = some args ↔ line = commandLine name args := by
  unfold cliMatch
  constructor
  · intro h
    split at h
    · rename_i hmatch
      obtain rfl := Option.some.inj h
      split
      · rename_i hspace
        obtain ⟨hlt, hget⟩ := List.getElem?_eq_some_iff.mp hspace
        have hname : line.take name.length = name := by
          rcases hmatch with rfl | ⟨hcmp, -⟩
          · exact List.take_length
          · simpa [strncmpEq] using hcmp
        rw [commandLine, ← hget, ← List.drop_eq_getElem_cons hlt]
        conv_lhs => rw [← List.take_append_drop name.length line, hname]
      · rename_i hspace
        exact hmatch.resolve_right fun h => hspace h.2
    · cases h
  · rintro rfl
    cases args with
    | none => simp [commandLine]
    | some args => simp [commandLine, strncmpEq]

/-- No name with a space behind it starts another one. -/
theorem cliCmds_separated : ∀ name ∈ cliCmds, ∀ name' ∈ cliCmds,
    name ++ [32] <+: name' ++ [32] → name = name' := by
  decide

theorem prefix_commandLine : name ++ [32] <+: commandLine name args ++ [32] := by
  cases args with
  | none => exact List.prefix_refl _
  | some args => exact ⟨args ++ [32], by simp [commandLine]⟩

/-- A line is that of one command at most. -/
theorem commandLine_inj {name' : Bytes} {args' : Option Bytes} (hname : name ∈ cliCmds)
    (hname' : name' ∈ cliCmds) (h : commandLine name args = commandLine name' args') :
    name = name' := by
  have hprefix : name ++ [32] <+: commandLine name' args' ++ [32] := h ▸ prefix_commandLine
  rcases List.prefix_or_prefix_of_prefix hprefix prefix_commandLine with hle | hle
  · exact cliCmds_separated name hname name' hname' hle
  · exact (cliCmds_separated name' hname' name hname hle).symm

theorem mem_cliCmds {cmd : Bytes × (Option Bytes → Option CliCall)} (h : cmd ∈ cliHandlers logOps) :
    cmd.1 ∈ cliCmds :=
  map_cliHandlers logOps ▸ List.mem_map_of_mem h

theorem execute_commandLine {handler : Option Bytes → Option CliCall}
    (h : (name, handler) ∈ cliHandlers logOps) (args : Option Bytes) :
    execute logOps (commandLine name args) = handler args := by
  obtain ⟨before, after, hsplit⟩ := List.append_of_mem h
  have hnodup : ((cliHandlers logOps).map Prod.fst).Nodup := by
    rw [map_cliHandlers]
    decide
  have hfind : ((cliHandlers logOps).findSome? fun cmd =>
      (cliMatch cmd.1 (commandLine name args)).map cmd.2) = some (handler args) := by
    rw [hsplit, List.findSome?_append, List.findSome?_eq_none_iff.mpr]
    · rw [Option.none_or, List.findSome?_cons, cliMatch_eq_some.mpr rfl, Option.map_some]
    · intro cmd hcmd
      have hne : cmd.1 ≠ name := by
        rw [hsplit, List.map_append, List.map_cons, List.nodup_append] at hnodup
        exact hnodup.2.2 cmd.1 (List.mem_map_of_mem hcmd) name List.mem_cons_self
      have hcmd' : cmd ∈ cliHandlers logOps := hsplit ▸ List.mem_append_left _ hcmd
      rw [Option.map_eq_none_iff, Option.eq_none_iff_forall_ne_some]
      intro args' hmatch
      exact hne (commandLine_inj (mem_cliCmds hcmd') (mem_cliCmds h)
        (cliMatch_eq_some.mp hmatch).symm)
  rw [execute, hfind, Option.getD_some]

/-- Every line is that of one command, whatever its place in the table, and makes this command run
with what is behind its name, or it is that of none and is unknown. -/
theorem execute_spec (logOps : Bool) (line : Bytes) :
    (∃ name handler args, (name, handler) ∈ cliHandlers logOps ∧ line = commandLine name args ∧
      execute logOps line = handler args ∧
        ∀ cmd ∈ cliHandlers logOps, cliMatch cmd.1 line ≠ none → cmd.1 = name) ∨
    (∀ cmd ∈ cliHandlers logOps, cliMatch cmd.1 line = none) ∧
      execute logOps line = some .unknown := by
  by_cases hall : ∀ cmd ∈ cliHandlers logOps, cliMatch cmd.1 line = none
  · refine Or.inr ⟨hall, ?_⟩
    rw [execute, List.findSome?_eq_none_iff.mpr, Option.getD_none]
    intro cmd hcmd
    rw [hall cmd hcmd, Option.map_none]
  · left
    push Not at hall
    obtain ⟨⟨name, handler⟩, hmem, hmatch⟩ := hall
    obtain ⟨args, hargs⟩ := Option.ne_none_iff_exists'.mp hmatch
    obtain rfl := cliMatch_eq_some.mp hargs
    refine ⟨name, handler, args, hmem, rfl, execute_commandLine hmem args, fun cmd hcmd hcm => ?_⟩
    obtain ⟨args', hargs'⟩ := Option.ne_none_iff_exists'.mp hcm
    exact commandLine_inj (mem_cliCmds hcmd) (mem_cliCmds hmem) (cliMatch_eq_some.mp hargs').symm

variable {spell : NosLogLevel → Bytes} {w text : Bytes} {n : ℕ}

theorem strToLevel_of_strcasecmpEq (h : strcasecmpEq w level.name = true) :
    strToLevel w = level := by
  simp only [strcasecmpEq, decide_eq_true_eq] at h
  simp only [strToLevel, strcasecmpEq, h]
  cases level <;> decide

theorem toLower_space {c : UInt8} (h : isSpace c = true) : toLower c = c := by
  simp only [isSpace, UInt8.le_iff_toNat_le, decide_eq_true_eq, ← UInt8.toNat_inj] at h
  refine if_neg fun hupper => ?_
  simp only [UInt8.le_iff_toNat_le] at hupper
  have h65 : (65 : UInt8).toNat = 65 := rfl
  have h32 : (32 : UInt8).toNat = 32 := rfl
  have h13 : (13 : UInt8).toNat = 13 := rfl
  omega

theorem word_of_strcasecmpEq (h : strcasecmpEq w level.name = true) :
    word w = some (w, []) ∧ w.length < 64 := by
  simp only [strcasecmpEq, decide_eq_true_eq] at h
  have hlen : w.length = level.name.length := by simpa using congrArg List.length h
  have hspace : ∀ c ∈ w, isSpace c = false := by
    intro c hc
    by_contra hne
    have hmem : toLower c ∈ level.name.map toLower := h ▸ List.mem_map_of_mem hc
    have hc' : isSpace c = true := by simpa using hne
    rw [toLower_space hc'] at hmem
    have hnone : (level.name.map toLower).any isSpace = false := by
      cases level <;> decide
    exact List.any_eq_false.mp hnone c hmem hc'
  have hpos : 0 < level.name.length ∧ level.name.length < 64 := by
    cases level <;> decide
  constructor
  · have hne : w ≠ [] := by
      rw [← List.length_pos_iff]
      omega
    have hword : word (w ++ []) = some (w, []) := word_append hne hspace (by rintro _ ⟨⟩)
    rwa [List.append_nil] at hword
  · omega

theorem atoiU32_decimal (h : n < 2 ^ 31) : atoiU32 (decimal n) = some n := by
  rw [atoiU32, number_decimal, Option.elim_some, asInt, if_pos (by omega), Option.map_some]
  congr 1
  omega

theorem execute_log (args : Option Bytes) :
    execute logOps (commandLine (ascii "log") args) = doLog logOps args :=
  execute_commandLine (by simp [cliHandlers]) args

theorem execute_level (text : Bytes) :
    execute logOps (ascii "log level " ++ text) = doLogLevel logOps text :=
  execute_log (some (ascii "level " ++ text))

theorem execute_spam (text : Bytes) :
    execute logOps (ascii "log spam " ++ text) = (atoiU32 text).map .logSpam :=
  execute_log (some (ascii "spam " ++ text))

theorem execute_perfStart (args : Option Bytes) :
    execute logOps (commandLine (ascii "perf start") args) = doPerfStart args :=
  execute_commandLine (by simp [cliHandlers]) args

theorem execute_perfRemote (args : Option Bytes) :
    execute logOps (commandLine (ascii "perf remote") args) = doPerfRemoteStart args :=
  execute_commandLine (by simp [cliHandlers]) args

theorem doLogLevel_setCompLevel (hn : n < 2 ^ 31) (h : strcasecmpEq w level.name = true) :
    doLogLevel true (decimal n ++ 32 :: w) = some (.setCompLevel n level) := by
  have hdec : word (decimal n ++ 32 :: w) = some (decimal n, 32 :: w) :=
    word_append decimal_ne_nil (fun c hc => isSpace_of_isDigit (isDigit_of_mem_decimal hc))
      (by rintro _ ⟨⟩; rfl)
  have hlen : (decimal n).length ≤ 10 := length_decimal_le (by omega) (by omega)
  obtain ⟨hword, hfit⟩ := word_of_strcasecmpEq h
  rw [doLogLevel, hdec]
  dsimp only
  rw [if_neg (by omega), word_space, hword]
  dsimp only
  rw [if_neg (by omega), if_pos rfl, atoiU32_decimal hn, strToLevel_of_strcasecmpEq h,
    Option.map_some]

theorem doLogLevel_setFilterLevel (h : strcasecmpEq w level.name = true) :
    doLogLevel true w = some (.setFilterLevel level) := by
  obtain ⟨hword, hfit⟩ := word_of_strcasecmpEq h
  have hnone : word ([] : Bytes) = none := rfl
  rw [doLogLevel, hword]
  dsimp only
  rw [if_neg (by omega), hnone]
  dsimp only
  rw [if_pos rfl, strToLevel_of_strcasecmpEq h]

theorem doPerfRemoteStart_decimal {size : ℕ} (hpos : 0 < n) (hn : n < 2 ^ 32)
    (hsize : size < 2 ^ 32) :
    doPerfRemoteStart (some (decimal n ++ 32 :: decimal size)) = some (.perfRemote n size) := by
  have hcount : number (decimal n ++ 32 :: decimal size) = some ((n : ℤ), 32 :: decimal size) :=
    number_append n (by rintro _ ⟨⟩; rfl)
  have hword : ∀ m : ℕ, m < 2 ^ 32 → asUint32 m = some m := by
    intro m hm
    rw [asUint32, if_pos (by omega), Int.toNat_natCast]
  rw [doPerfRemoteStart, hcount]
  dsimp only
  rw [hword n hn, Option.bind_some, number_space, number_decimal, Option.elim_some]
  dsimp only
  rw [hword size hsize, Option.map_some, countOrDefault, if_neg (by omega)]

/-- A line that is typed for a call makes the command line do this call, whatever way the levels are
capitalised. -/
theorem execute_line (hspell : ∀ level : NosLogLevel, strcasecmpEq (spell level) level.name = true)
    (hfits : call.Fits logOps) : execute logOps (call.line spell) = some call := by
  cases call with
  | logSpam count => rw [CliCall.line, execute_spam, atoiU32_decimal hfits, Option.map_some]
  | setFilterLevel level =>
    obtain rfl : logOps = true := hfits
    rw [CliCall.line, execute_level, doLogLevel_setFilterLevel (hspell level)]
  | setCompLevel compId level =>
    obtain ⟨hn, rfl⟩ := hfits
    rw [CliCall.line, List.append_assoc, execute_level, doLogLevel_setCompLevel hn (hspell level)]
  | perfStart count =>
    have hrun : execute logOps (commandLine (ascii "perf start") (some (decimal count))) = _ :=
      execute_perfStart _
    rw [doPerfStart, atoiU32_decimal hfits.2, Option.map_some, countOrDefault,
      if_neg (Nat.ne_of_gt hfits.1)] at hrun
    exact hrun
  | perfRemote count size =>
    have hrun : execute logOps (commandLine (ascii "perf remote")
        (some (decimal count ++ 32 :: decimal size))) = _ := execute_perfRemote _
    rw [doPerfRemoteStart_decimal hfits.1 hfits.2.1 hfits.2.2] at hrun
    rw [CliCall.line, List.append_assoc]
    exact hrun
  | load name =>
    have hmem : (ascii "load", doNamed .load) ∈ cliHandlers logOps := by simp [cliHandlers]
    exact execute_commandLine hmem (some name)
  | unload name =>
    have hmem : (ascii "unload", doNamed .unload) ∈ cliHandlers logOps := by simp [cliHandlers]
    exact execute_commandLine hmem (some name)
  | reload name =>
    have hmem : (ascii "reload", doNamed .reload) ∈ cliHandlers logOps := by simp [cliHandlers]
    exact execute_commandLine hmem (some name)
  | unknown => cases hfits
  | levelUsage | noLogService =>
    rw [CliCall.line, (hfits : logOps = _)]
    decide
  | help | showComponents | showServices | showDb | showMemory | showIpc | clearIpc | logUsage
  | logStats | quit | nothing =>
    rw [CliCall.line]
    cases logOps <;> decide

/-- Component 7 is set to warnings, in whatever way they are written. -/
theorem execute_line_comp_level :
    strcasecmpEq (ascii "wArN") NosLogLevel.warn.name = true ∧
      execute true (ascii "log level 7 wArN") = some (.setCompLevel 7 .warn) := by
  have hspell : ∀ level : NosLogLevel, strcasecmpEq
      (if level = .warn then ascii "wArN" else level.name) level.name = true := by
    intro level
    cases level <;> decide
  have hfits : CliCall.Fits true (.setCompLevel 7 .warn) := ⟨by decide, rfl⟩
  exact ⟨by decide, execute_line hspell hfits⟩

/-- A line as the loop gets it: without a zero byte, and no longer than its buffer holds. -/
abbrev CliLine := {line : Bytes // 0 ∉ line ∧ line.length ≤ 255}

/-- The thread of the command line: whether there is a log service, the history, the calls made, and
`keep_running`. -/
structure CliShell where
  logOps : Bool
  history : CliHistory
  calls : List CliCall
  running : Bool

namespace CliShell

theorem length_le_of_mem_nil : ∀ e ∈ ([] : List Bytes), e.length ≤ 255 := List.forall_mem_nil _

theorem no_nul_of_mem_nil : ∀ e ∈ ([] : List Bytes), 0 ∉ e := List.forall_mem_nil _

def init (logOps : Bool) : CliShell where
  logOps := logOps
  history := ⟨[], Nat.zero_le _, length_le_of_mem_nil, no_nul_of_mem_nil⟩
  calls := []
  running := true

/-- One round of the loop of `node_cli_thread_entry`. -/
def step (s : CliShell) (line : CliLine) : Option CliShell :=
  if s.running = false then none
  else if line.1 = [] then some s
  else (execute s.logOps line.1).map fun call =>
    ⟨s.logOps, s.history.add line.1 line.2.1, s.calls ++ [call], call ≠ .quit⟩

def typed (lines : List CliLine) : List Bytes := (lines.map Subtype.val).filter (· ≠ [])

def distinct : List Bytes → List Bytes := List.destutter (· ≠ ·)

/-- What a session leaves: in the history the last lines without repetitions, the newest first, and
in the calls what each line stands for, up to the one that ends the session. -/
structure Remembers (s : CliShell) (lines : List CliLine) : Prop where
  history : s.history.entries = ((distinct (typed lines)).reverse).take maxHistory
  calls : s.calls.map some = (typed lines).map (execute s.logOps)
  running : s.running = true ↔ .quit ∉ s.calls
  last : .quit ∈ s.calls → ∃ calls, s.calls = calls ++ [.quit] ∧ .quit ∉ calls

variable {s s' : CliShell} {lines : List CliLine} {cmd : Bytes} {cmds : List Bytes}

theorem destutter'_concat (a : Bytes) :
    (cmds ++ [cmd]).destutter' (· ≠ ·) a =
      if (cmds.destutter' (· ≠ ·) a).getLast? = some cmd then cmds.destutter' (· ≠ ·) a
      else cmds.destutter' (· ≠ ·) a ++ [cmd] := by
  induction cmds generalizing a with
  | nil =>
    by_cases he : a = cmd
    · simp [he]
    · simp [he]
  | cons b cmds ih =>
    rw [List.cons_append, List.destutter'_cons, List.destutter'_cons]
    by_cases hne : a ≠ b
    · rw [if_pos hne, if_pos hne, ih b, List.getLast?_cons_of_ne_nil (List.destutter'_ne_nil _ _)]
      split
      · rfl
      · rfl
    · rw [if_neg hne, if_neg hne, ih a]

theorem distinct_concat : distinct (cmds ++ [cmd]) =
    if (distinct cmds).getLast? = some cmd then distinct cmds else distinct cmds ++ [cmd] := by
  cases cmds with
  | nil => simp [distinct]
  | cons a cmds => exact destutter'_concat a

theorem typed_concat (line : CliLine) :
    typed (lines ++ [line]) = if line.1 = [] then typed lines else typed lines ++ [line.1] := by
  simp only [typed, List.map_append, List.map_singleton, List.filter_append]
  split
  · rename_i he
    simp [he]
  · rename_i hne
    simp [hne]

/-- `history_add` of a line that fits. -/
theorem history_concat {h : CliHistory} {line : CliLine} (hne : line.1 ≠ [])
    (hh : h.entries = ((distinct cmds).reverse).take maxHistory) :
    (h.add line.1 line.2.1).entries =
      ((distinct (cmds ++ [line.1])).reverse).take maxHistory := by
  have hhead : h.entries.head? = (distinct cmds).getLast? := by
    rw [hh, List.head?_take, if_neg (by decide), List.head?_reverse]
  rw [CliHistory.add, hhead, distinct_concat]
  by_cases hlast : (distinct cmds).getLast? = some line.1
  · rw [if_pos (Or.inr hlast), if_pos hlast, hh]
  · rw [if_neg (not_or.mpr ⟨hne, hlast⟩), if_neg hlast]
    dsimp only
    rw [List.take_of_length_le line.2.2, hh, List.reverse_append,
      List.reverse_singleton, List.singleton_append, maxHistory, List.take_succ_cons,
      List.take_succ_cons, List.take_take]
    rfl

theorem Remembers.step {line : CliLine} (h : s.Remembers lines) (hs : s.step line = some s') :
    s'.Remembers (lines ++ [line]) := by
  simp only [CliShell.step] at hs
  split at hs
  · cases hs
  · rename_i hrunning
    have hnone : .quit ∉ s.calls := h.running.mp (by simpa using hrunning)
    split at hs
    · rename_i hnil
      cases hs
      have htyped : typed (lines ++ [line]) = typed lines := by rw [typed_concat, if_pos hnil]
      exact ⟨htyped ▸ h.history, htyped ▸ h.calls, h.running, h.last⟩
    · rename_i hne
      obtain ⟨call, hcall, rfl⟩ := Option.map_eq_some_iff.mp hs
      have htyped : typed (lines ++ [line]) = typed lines ++ [line.1] := by
        rw [typed_concat, if_neg hne]
      constructor
      · rw [htyped]
        exact history_concat hne h.history
      · rw [htyped, List.map_append, List.map_append, h.calls, List.map_singleton,
          List.map_singleton, hcall]
      · rw [decide_eq_true_eq, List.mem_append, List.mem_singleton, not_or]
        exact ⟨fun hne => ⟨hnone, Ne.symm hne⟩, fun h => Ne.symm h.2⟩
      · intro hquit
        rcases List.mem_append.mp hquit with hquit | hquit
        · exact absurd hquit hnone
        · rw [← List.mem_singleton.mp hquit]
          exact ⟨s.calls, rfl, hnone⟩

end CliShell

end GeminiNOS

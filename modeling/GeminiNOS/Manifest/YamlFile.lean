import GeminiNOS.Foundations.Text
import GeminiNOS.Manifest.Config

/-! # Configuration files

The shapes of the files under `conf/`: sections of nodes, platform services,
components, models and buffer profiles, with the lines and the indentation that they
have there, and the data that these lines stand for in YAML.
-/

namespace GeminiNOS

open Foundations Foundations.Text

/-- A character that stands for itself between double quotes in YAML: it is printable, and neither
the quote nor the backslash. -/
def isPlain (c : Char) : Bool := 32 ≤ c.toNat ∧ c.toNat ≤ 126 ∧ c ≠ '"' ∧ c ≠ '\\'

/-- A text that stands for itself between double quotes. -/
structure PlainText where
  chars : Text
  plain : chars.all isPlain = true

namespace PlainText

def str (t : PlainText) : String := String.ofList t.chars

def quote (t : PlainText) : Text := '"' :: (t.chars ++ ['"'])

end PlainText

inductive ServiceType where
  | embedded
  | remote
  deriving DecidableEq, Repr

def ServiceType.str : ServiceType → String
  | .embedded => "embedded"
  | .remote => "remote"

structure FileService where
  name : PlainText
  id : ℕ
  type : ServiceType

structure FileThread where
  name : PlainText
  components : List PlainText
  components_ne_nil : components ≠ []

structure FileNode where
  name : PlainText
  udsPath : PlainText
  bufferProfile : Option PlainText
  busyPollCycles : Option ℕ
  threads : List FileThread
  threads_ne_nil : threads ≠ []

/-- A component. The keys `provides` and `requires` are there if they have elements. -/
structure FileComponent where
  name : PlainText
  model : PlainText
  id : ℕ
  provides : List FileService
  requires : List PlainText

structure FileModel where
  name : PlainText
  lib : PlainText

/-- A bin, with the number of blanks that align its second column. -/
structure FileBin where
  size : ℕ
  pad : ℕ
  count : ℕ

structure FileProfile where
  name : PlainText
  bins : List FileBin
  bins_ne_nil : bins ≠ []

inductive FileSection where
  | nodes (l : List FileNode) (h : l ≠ [])
  | platform (l : List FileService) (h : l ≠ [])
  | components (l : List FileComponent) (h : l ≠ [])
  | models (l : List FileModel) (h : l ≠ [])
  | profiles (l : List FileProfile) (h : l ≠ [])

def FileSection.key : FileSection → String
  | .nodes .. => "nodes"
  | .platform .. => "platform"
  | .components .. => "components"
  | .models .. => "models"
  | .profiles .. => "profiles"

/-- A file has each section at most once. -/
structure ConfFile where
  sections : List FileSection
  keys_nodup : (sections.map FileSection.key).Nodup

abbrev Entry := ℕ × Text

def Entry.line (e : Entry) : Text := List.replicate e.1 ' ' ++ e.2

def FileService.entry (indent : ℕ) (svc : FileService) : Entry :=
  (indent, "- \x7b name: ".toList ++ (svc.name.quote ++ (", id: ".toList ++ (digits svc.id ++
    (", type: \"".toList ++ (svc.type.str.toList ++ "\" \x7d".toList))))))

def FileThread.entries (t : FileThread) : List Entry :=
  [(6, "- name: ".toList ++ t.name.quote),
    (8, "components: [".toList ++ ((List.intersperse ", ".toList
      (t.components.map PlainText.quote)).flatten ++ "]".toList))]

def FileNode.entries (n : FileNode) : List Entry :=
  [(2, "- name: ".toList ++ n.name.quote), (4, "uds_path: ".toList ++ n.udsPath.quote)] ++
    n.bufferProfile.toList.map (fun t => (4, "buffer_profile: ".toList ++ t.quote)) ++
    n.busyPollCycles.toList.map (fun k => (4, "busy_poll_cycles: ".toList ++ digits k)) ++
    (4, "threads:".toList) :: n.threads.flatMap FileThread.entries

def requireEntry (t : PlainText) : Entry := (6, "- ".toList ++ t.quote)

def FileComponent.entries (c : FileComponent) : List Entry :=
  [(2, "- name: ".toList ++ c.name.quote), (4, "model: ".toList ++ c.model.quote),
    (4, "id: ".toList ++ digits c.id)] ++
    (if c.provides = [] then [] else
      (4, "provides:".toList) :: c.provides.map (FileService.entry 6)) ++
    (if c.requires = [] then [] else
      (4, "requires:".toList) :: c.requires.map requireEntry)

def FileModel.entries (m : FileModel) : List Entry :=
  [(2, "- name: ".toList ++ m.name.quote), (4, "lib: ".toList ++ m.lib.quote)]

def FileBin.entry (b : FileBin) : Entry :=
  (6, "- \x7b size: ".toList ++ (digits b.size ++ (',' :: (List.replicate (b.pad + 1) ' ' ++
    ("count: ".toList ++ (digits b.count ++ " \x7d".toList))))))

def FileProfile.entries (p : FileProfile) : List Entry :=
  [(2, "- name: ".toList ++ p.name.quote), (4, "bins:".toList)] ++ p.bins.map FileBin.entry

def FileSection.entries : FileSection → List Entry
  | .nodes l _ => (0, "nodes:".toList) :: l.flatMap FileNode.entries
  | .platform l _ =>
    (0, "platform:".toList) :: (2, "provides:".toList) :: l.map (FileService.entry 4)
  | .components l _ => (0, "components:".toList) :: l.flatMap FileComponent.entries
  | .models l _ => (0, "models:".toList) :: l.flatMap FileModel.entries
  | .profiles l _ => (0, "profiles:".toList) :: l.flatMap FileProfile.entries

def ConfFile.entries (f : ConfFile) : List Entry := f.sections.flatMap FileSection.entries

def IsEntryLine (line : Text) : Prop := line ≠ [] ∧ (lstrip line).head? ≠ some '#'

instance (line : Text) : Decidable (IsEntryLine line) := by
  unfold IsEntryLine
  infer_instance

/-- The lines are those of the file, with blank lines and comments between them and with
whitespace at their ends. -/
def ConfFile.HasLines (f : ConfFile) (lines : List Text) : Prop :=
  (lines.map rstrip).filter IsEntryLine = f.entries.map Entry.line

instance (f : ConfFile) (lines : List Text) : Decidable (f.HasLines lines) := by
  unfold ConfFile.HasLines
  infer_instance

def FileService.data (svc : FileService) : ConfService :=
  ⟨svc.name.str, svc.id, some svc.type.str⟩

def FileThread.data (t : FileThread) : ConfThread := ⟨t.name.str, t.components.map PlainText.str⟩

def FileNode.data (n : FileNode) : ConfNode :=
  ⟨n.name.str, some n.udsPath.str, n.bufferProfile.map PlainText.str,
    n.busyPollCycles.map fun k => (k : ℤ), n.threads.map FileThread.data⟩

def FileComponent.data (c : FileComponent) : ConfComponent :=
  ⟨c.name.str, some c.id, some c.model.str, c.provides.map FileService.data,
    c.requires.map PlainText.str⟩

def FileModel.data (m : FileModel) : ConfModel := ⟨m.name.str, m.lib.str⟩

def FileBin.data (b : FileBin) : ConfBin :=
  ((∅ : ConfBin).insert "size" b.size).insert "count" b.count

def FileProfile.data (p : FileProfile) : ConfProfile := ⟨p.name.str, p.bins.map FileBin.data⟩

/-- The data of a section, entered into that of the sections before it. -/
def FileSection.addTo (data : ConfData) : FileSection → ConfData
  | .nodes l _ => { data with nodes := data.nodes ++ l.map FileNode.data }
  | .platform l _ => { data with platform := data.platform ++ l.map FileService.data }
  | .components l _ => { data with components := data.components ++ l.map FileComponent.data }
  | .models l _ => { data with models := data.models ++ l.map FileModel.data }
  | .profiles l _ => { data with profiles := data.profiles ++ l.map FileProfile.data }

def ConfFile.yamlMeaning (f : ConfFile) : ConfData :=
  f.sections.foldl FileSection.addTo ⟨[], [], [], [], []⟩

end GeminiNOS

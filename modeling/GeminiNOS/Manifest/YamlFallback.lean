import GeminiNOS.Foundations.Text
import GeminiNOS.Manifest.Config

/-! # The reader without a YAML library

`parse_yaml_fallback` goes through a file line by line. The line that begins a section
chooses the mode; in each mode the tests on the content and on the indentation of a
line are made in a fixed order, and the first that succeeds decides. Where Python
raises an exception, the reader fails.
-/

namespace GeminiNOS

open Foundations Foundations.Text

/-- The section that the reader is in. -/
inductive YamlMode where
  | nodes
  | services
  | components
  | profiles
  | models
  | platform
  deriving DecidableEq, Repr

structure YamlState where
  mode : Option YamlMode
  data : ConfData

def modifyLast {α : Type*} (f : α → Option α) (l : List α) : Option (List α) := do
  let a ← l.getLast?
  let b ← f a
  some (l.dropLast ++ [b])

namespace YamlFallback

def headerMode (content : Text) : Option YamlMode :=
  if content = "nodes:".toList then some .nodes
  else if content = "services:".toList then some .services
  else if content = "components:".toList then some .components
  else if content = "profiles:".toList then some .profiles
  else if content = "models:".toList then some .models
  else if content = "platform:".toList then some .platform
  else none

/-- `content.split(":")[1].strip()` -/
def value (content : Text) : Option Text := (split ':' content)[1]?.map strip

/-- `content.split(":")[1].strip().strip('"')` -/
def quotedValue (content : Text) : Option String :=
  (value content).map fun s => String.ofList (stripOf (· = '"') s)

/-- `int(content.split(":")[1].strip())` -/
def intValue (content : Text) : Option ℤ := (value content).bind toInt?

/-- The elements of `content.split(":")[1].strip().strip('[]').split(',')`. -/
def listValue (content : Text) : Option (List String) :=
  (value content).map fun s =>
    ((split ',' (stripOf (· ∈ ['[', ']']) s)).filter (strip · ≠ [])).map fun c =>
      String.ofList (stripOf (· = '"') (strip c))

/-- `content.split("-")[1].strip().strip('"')` -/
def itemValue (content : Text) : Option String :=
  (split '-' content)[1]?.map fun s => String.ofList (stripOf (· = '"') (strip s))

/-- A match of `name:\\s*"([^"]+)"` at the beginning of a text. -/
def matchName (s : Text) : Option Text :=
  if "name:".toList <+: s then
    match lstrip (s.drop 5) with
    | '"' :: s =>
      let name := s.takeWhile (· ≠ '"')
      if name ≠ [] ∧ s.dropWhile (· ≠ '"') ≠ [] then some name else none
    | _ => none
  else none

/-- A match of `id:\\s*(\\d+)` at the beginning of a text. -/
def matchId (s : Text) : Option ℕ :=
  if "id:".toList <+: s then
    let ds := (lstrip (s.drop 3)).takeWhile Char.isDigit
    if ds ≠ [] then some (Nat.ofDigitChars 10 ds 0) else none
  else none

/-- `re.search`, for a match at the beginning of a text. -/
def search {α : Type*} (m : Text → Option α) : Text → Option α
  | [] => m []
  | c :: s => m (c :: s) <|> search m s

/-- The service of a line of `provides`. -/
def inlineService (content : Text) (type : Option String) : Option ConfService := do
  let name ← search matchName content
  let id ← search matchId content
  some ⟨String.ofList name, id, type⟩

/-- `k, v = p.split(':')` and `bin_data[k.strip()] = int(v.strip())` -/
def binPart (bin : ConfBin) (p : Text) : Option ConfBin :=
  match split ':' p with
  | [k, v] => (toInt? (strip v)).map fun i => bin.insert (String.ofList (strip k)) i
  | _ => none

/-- The bin of a line of `bins`. -/
def inlineBin (content : Text) : Option ConfBin :=
  (split ',' (stripOf (· ∈ ['{', '}']) (strip content))).foldlM binPart ∅

def scanNodes (data : ConfData) (indent : ℕ) (content : Text) : Option ConfData :=
  if "- name:".toList <+: content then do
    let name ← quotedValue content
    some { data with nodes := data.nodes ++ [⟨name, none, some "default", none, []⟩] }
  else if "uds_path:".toList <:+: content then do
    let udsPath ← quotedValue content
    let nodes ← modifyLast (fun n => some { n with udsPath := some udsPath }) data.nodes
    some { data with nodes := nodes }
  else if "buffer_profile:".toList <:+: content then do
    let profile ← quotedValue content
    let nodes ← modifyLast (fun n => some { n with bufferProfile := some profile }) data.nodes
    some { data with nodes := nodes }
  else if "busy_poll_cycles:".toList <:+: content then do
    let cycles ← intValue content
    let nodes ← modifyLast (fun n => some { n with busyPollCycles := some cycles }) data.nodes
    some { data with nodes := nodes }
  else if "- name:".toList <+: content ∧ 4 < indent then do
    let name ← quotedValue content
    let nodes ← modifyLast (fun n => some { n with threads := n.threads ++ [⟨name, []⟩] })
      data.nodes
    some { data with nodes := nodes }
  else if "components:".toList <:+: content then do
    let comps ← listValue content
    let nodes ← modifyLast (fun n => do
      let threads ← modifyLast (fun t => some { t with components := comps }) n.threads
      some { n with threads := threads }) data.nodes
    some { data with nodes := nodes }
  else some data

/-- An assignment to `data["components"][-1]`. -/
def modifyComponent (data : ConfData) (f : ConfComponent → ConfComponent) : Option ConfData := do
  let components ← modifyLast (fun c => some (f c)) data.components
  some { data with components := components }

def scanComponents (data : ConfData) (indent : ℕ) (content : Text) : Option ConfData :=
  if "- name:".toList <+: content then do
    let name ← quotedValue content
    some { data with components := data.components ++ [⟨name, none, some "", [], []⟩] }
  else if "id:".toList <:+: content ∧ indent = 4 then do
    let id ← intValue content
    modifyComponent data ({ · with id := some id })
  else if "model:".toList <:+: content then do
    let model ← quotedValue content
    modifyComponent data ({ · with model := some model })
  else if "provides:".toList <:+: content then some data
  else if "- \x7b name:".toList <+: content ∧ 4 < indent then do
    let svc ← inlineService content none
    modifyComponent data fun c => { c with provides := c.provides ++ [svc] }
  else if "requires:".toList <:+: content then some data
  else if "- ".toList <+: content ∧ 4 < indent then do
    let name ← itemValue content
    modifyComponent data fun c => { c with requires := c.requires ++ [name] }
  else some data

def scanPlatform (data : ConfData) (indent : ℕ) (content : Text) : Option ConfData :=
  if "- \x7b name:".toList <+: content ∧ 4 < indent then do
    let svc ← inlineService content (some "embedded")
    some { data with platform := data.platform ++ [svc] }
  else some data

def scanModels (data : ConfData) (content : Text) : Option ConfData :=
  if "- name:".toList <+: content then do
    let name ← quotedValue content
    some { data with models := data.models ++ [⟨name, ""⟩] }
  else if "lib:".toList <:+: content then do
    let lib ← quotedValue content
    let models ← modifyLast (fun m => some { m with lib := lib }) data.models
    some { data with models := models }
  else some data

def scanProfiles (data : ConfData) (content : Text) : Option ConfData :=
  if "- name:".toList <+: content then do
    let name ← quotedValue content
    some { data with profiles := data.profiles ++ [⟨name, []⟩] }
  else if "size:".toList <:+: content then do
    let bin ← inlineBin content
    let profiles ← modifyLast (fun p => some { p with bins := p.bins ++ [bin] }) data.profiles
    some { data with profiles := profiles }
  else some data

def scanMode (data : ConfData) (indent : ℕ) (content : Text) : Option YamlMode → Option ConfData
  | some .nodes => scanNodes data indent content
  | some .components => scanComponents data indent content
  | some .platform => scanPlatform data indent content
  | some .models => scanModels data content
  | some .profiles => scanProfiles data content
  | some .services => some data
  | none => some data

/-- A turn of the loop, with the indentation and the content of a line. -/
def scanContent (s : YamlState) (indent : ℕ) (content : Text) : Option YamlState :=
  match headerMode content with
  | some mode => some { s with mode := some mode }
  | none => (scanMode s.data indent content s.mode).map fun data => { s with data := data }

def Significant (line : Text) : Prop := line ≠ [] ∧ ¬"#".toList <+: lstrip line

instance (line : Text) : Decidable (Significant line) := by
  unfold Significant
  infer_instance

def scanLine (s : YamlState) (line : Text) : Option YamlState :=
  let line := rstrip line
  if Significant line then scanContent s (line.length - (lstrip line).length) (strip line)
  else some s

end YamlFallback

/-- `parse_yaml_fallback`, on the lines of a file. -/
def parseYamlFallback (lines : List Text) : Option ConfData :=
  (lines.foldlM YamlFallback.scanLine ⟨none, ⟨[], [], [], [], []⟩⟩).map YamlState.data

end GeminiNOS

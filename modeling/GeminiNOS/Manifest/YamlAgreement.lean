import GeminiNOS.Manifest.GeneratorReads
import GeminiNOS.Manifest.YamlUnread

/-! # The two readers

The reader without a YAML library agrees with the YAML meaning of a configuration file
just on the files with readable components and models. On the others it fails or its
lists differ: they have other elements, or another length, which no later section
makes up for.
-/

namespace GeminiNOS

open Foundations Foundations.Text

namespace YamlFallback

variable {data : ConfData} {s' : YamlState}

/-- What a section does to the data: it makes too many nodes, reads nothing of the platform, or
reads an element for each of its own, which is the same only for readable elements. -/
def Effect (data data' : ConfData) : FileSection → Prop
  | .nodes l _ =>
    ∃ ns, data' = { data with nodes := ns } ∧ data.nodes.length + l.length < ns.length
  | .platform _ _ => data' = data
  | .components l _ => ∃ cs, data' = { data with components := data.components ++ cs } ∧
    List.Forall₂ (fun comp c => c.forGenerator = comp.data.forGenerator → comp.Readable) l cs
  | .models l _ => ∃ ms, data' = { data with models := data.models ++ ms } ∧
    List.Forall₂ (fun m m' => m' = m.data ↔ m.Readable) l ms
  | .profiles l _ => ∃ ps, data' = { data with profiles := data.profiles ++ ps } ∧
    List.Forall₂ (fun p p' => p' ≠ p.data) l ps

theorem scan_section {s : YamlState} {sec : FileSection} (h : scan s sec.entries = some s') :
    Effect s.data s'.data sec := by
  cases sec with
  | nodes l hl =>
    have hscan : scan ⟨some .nodes, s.data⟩ (l.flatMap FileNode.entries) = some s' := h
    obtain ⟨ns, rfl, hlength⟩ := scan_nodes l hl hscan
    exact ⟨ns, rfl, hlength⟩
  | platform l hl =>
    rw [scan_platform] at h
    obtain rfl := Option.some.inj h
    rfl
  | components l hl =>
    have hscan : scan ⟨some .components, s.data⟩ (l.flatMap FileComponent.entries) = some s' := h
    obtain ⟨cs, rfl, hall⟩ := scan_components l hscan
    exact ⟨cs, rfl, hall⟩
  | models l hl =>
    have hscan : scan ⟨some .models, s.data⟩ (l.flatMap FileModel.entries) = some s' := h
    obtain ⟨ms, hms, hall⟩ := scan_models l s.data
    obtain rfl := Option.some.inj (hms.symm.trans hscan)
    exact ⟨ms, rfl, hall⟩
  | profiles l hl =>
    have hscan : scan ⟨some .profiles, s.data⟩ (l.flatMap FileProfile.entries) = some s' := h
    obtain ⟨ps, hps, hall⟩ := scan_profiles l s.data
    obtain rfl := Option.some.inj (hps.symm.trans hscan)
    exact ⟨ps, rfl, hall⟩

/-- What holds of the data that has been read and of the data in YAML: there are no fewer nodes, no
more services of the platform, and as many of all others. -/
structure Ahead (data yaml : ConfData) : Prop where
  nodes : yaml.nodes.length ≤ data.nodes.length
  platform : data.platform.length ≤ yaml.platform.length
  components : data.components.length = yaml.components.length
  models : data.models.length = yaml.models.length
  profiles : data.profiles.length = yaml.profiles.length

variable {yaml data' : ConfData} {sec : FileSection}

theorem Effect.ahead (h : Effect data data' sec) (ha : Ahead data yaml) :
    Ahead data' (sec.addTo yaml) := by
  cases sec with
  | nodes l hl =>
    obtain ⟨ns, rfl, hlength⟩ := h
    refine { ha with nodes := ?_ }
    have := ha.nodes
    simp only [FileSection.addTo, List.length_append, List.length_map]
    omega
  | platform l hl =>
    obtain rfl : data' = data := h
    refine { ha with platform := ?_ }
    have := ha.platform
    simp only [FileSection.addTo, List.length_append, List.length_map]
    omega
  | components l hl =>
    obtain ⟨cs, rfl, hall⟩ := h
    refine { ha with components := ?_ }
    simp only [FileSection.addTo, List.length_append, List.length_map, ha.components,
      hall.length_eq]
  | models l hl =>
    obtain ⟨ms, rfl, hall⟩ := h
    refine { ha with models := ?_ }
    simp only [FileSection.addTo, List.length_append, List.length_map, ha.models, hall.length_eq]
  | profiles l hl =>
    obtain ⟨ps, rfl, hall⟩ := h
    refine { ha with profiles := ?_ }
    simp only [FileSection.addTo, List.length_append, List.length_map, ha.profiles, hall.length_eq]

theorem forall_of_forall₂ {α β γ : Type*} {R : α → β → Prop} {G : α → Prop} {f : β → γ}
    {g : α → γ} (hR : ∀ a b, R a b → f b = g a → G a) {l : List α} {l' : List β}
    (hall : List.Forall₂ R l l') (he : l'.map f = l.map g) : ∀ a ∈ l, G a := by
  induction hall with
  | nil => simp
  | cons hab _ ih =>
    obtain ⟨hhead, htail⟩ := List.cons.inj he
    exact List.forall_mem_cons.mpr ⟨hR _ _ hab hhead, ih htail⟩

/-- If the data is the same after a section, then the section is readable and the data was the same
before it. -/
theorem Effect.readable (h : Effect data data' sec) (ha : Ahead data yaml)
    (he : data'.forGenerator = (sec.addTo yaml).forGenerator) :
    sec.Readable ∧ data.forGenerator = yaml.forGenerator := by
  simp only [ConfData.forGenerator, ConfData.mk.injEq] at he ⊢
  cases sec with
  | nodes l hl =>
    obtain ⟨ns, rfl, hlength⟩ := h
    have hnodes := congrArg List.length he.1
    simp only [FileSection.addTo, List.length_append, List.length_map] at hnodes
    have := ha.nodes
    omega
  | platform l hl =>
    obtain rfl : data' = data := h
    have hplatform := congrArg List.length he.2.2.2.2
    simp only [FileSection.addTo, List.length_append, List.length_map] at hplatform
    have := ha.platform
    have := List.length_pos_iff.mpr hl
    omega
  | components l hl =>
    obtain ⟨cs, rfl, hall⟩ := h
    obtain ⟨hnodes, hcomponents, hprofiles, hmodels, hplatform⟩ := he
    simp only [FileSection.addTo, List.map_append, List.map_map] at hcomponents
    obtain ⟨hold, hnew⟩ := List.append_inj hcomponents (by simp [ha.components])
    exact ⟨forall_of_forall₂ (fun _ _ hR => hR) hall hnew, hnodes, hold, hprofiles, hmodels,
      hplatform⟩
  | models l hl =>
    obtain ⟨ms, rfl, hall⟩ := h
    obtain ⟨hnodes, hcomponents, hprofiles, hmodels, hplatform⟩ := he
    obtain ⟨hold, hnew⟩ := List.append_inj hmodels ha.models
    exact ⟨forall_of_forall₂ (f := id) (fun _ _ hR => hR.mp) hall (by simpa using hnew), hnodes,
      hcomponents, hprofiles, hold, hplatform⟩
  | profiles l hl =>
    obtain ⟨ps, rfl, hall⟩ := h
    obtain ⟨-, -, hprofiles, -, -⟩ := he
    obtain ⟨-, hnew⟩ := List.append_inj hprofiles ha.profiles
    obtain ⟨p, hp⟩ := List.exists_mem_of_ne_nil _ hl
    exact (forall_of_forall₂ (f := id) (G := fun _ => False) (fun _ _ hR => hR) hall
      (by simpa using hnew) p hp).elim

theorem scan_sections (secs : List FileSection) {s : YamlState}
    (h : scan s (secs.flatMap FileSection.entries) = some s') (ha : Ahead s.data yaml)
    (he : s'.data.forGenerator = (secs.foldl FileSection.addTo yaml).forGenerator) :
    (∀ sec ∈ secs, sec.Readable) ∧ s.data.forGenerator = yaml.forGenerator := by
  induction secs generalizing s yaml with
  | nil =>
    obtain rfl := Option.some.inj h
    exact ⟨by simp, he⟩
  | cons sec secs ih =>
    rw [List.flatMap_cons, scan_append] at h
    obtain ⟨s₁, hs₁, h⟩ := Option.bind_eq_some_iff.mp h
    have heffect := scan_section hs₁
    obtain ⟨hsecs, he₁⟩ := ih h (heffect.ahead ha) he
    obtain ⟨hsec, he₀⟩ := heffect.readable ha he₁
    exact ⟨List.forall_mem_cons.mpr ⟨hsec, hsecs⟩, he₀⟩

end YamlFallback

def FileSection.comps : FileSection → List FileComponent
  | .components l _ => l
  | .nodes .. | .platform .. | .models .. | .profiles .. => []

def ConfFile.comps (f : ConfFile) : List FileComponent := f.sections.flatMap FileSection.comps

/-- The reader without a YAML library reads a file: it has sections of components and models only,
and these are readable. -/
def ConfFile.Readable (f : ConfFile) : Prop := ∀ sec ∈ f.sections, sec.Readable

instance (f : ConfFile) : Decidable f.Readable := by
  unfold ConfFile.Readable
  infer_instance

/-- The data of a readable section, entered into that of the sections before it. -/
def FileSection.scannedTo (data : ConfData) : FileSection → ConfData
  | .components l _ =>
    { data with components := data.components ++ l.map FileComponent.scanned }
  | .models l h => FileSection.addTo data (.models l h)
  | .nodes .. | .platform .. | .profiles .. => data

namespace YamlFallback

variable {data yaml : ConfData} {sec : FileSection}

theorem scan_section_of_readable (h : sec.Readable) (s : YamlState) :
    ∃ mode, scan s sec.entries = some ⟨mode, sec.scannedTo s.data⟩ := by
  cases sec with
  | nodes l hl => exact h.elim
  | platform l hl => exact h.elim
  | components l hl => exact ⟨_, scan_components_of_readable l h s.data⟩
  | models l hl =>
    obtain ⟨ms, hms, hall⟩ := scan_models l s.data
    have hreadable : ∀ m ∈ l, m.Readable := h
    have hmodels : ms = l.map FileModel.data := by
      clear hms h hl
      induction hall with
      | nil => rfl
      | cons hm _ ih =>
        obtain ⟨hhead, htail⟩ := List.forall_mem_cons.mp hreadable
        rw [hm.mpr hhead, ih htail, List.map_cons]
    rw [hmodels] at hms
    exact ⟨_, hms⟩
  | profiles l hl => exact h.elim

theorem scan_sections_of_readable (secs : List FileSection) (h : ∀ sec ∈ secs, sec.Readable)
    (s : YamlState) :
    ∃ mode, scan s (secs.flatMap FileSection.entries) =
      some ⟨mode, secs.foldl FileSection.scannedTo s.data⟩ := by
  induction secs generalizing s with
  | nil => exact ⟨s.mode, rfl⟩
  | cons sec secs ih =>
    obtain ⟨hsec, hsecs⟩ := List.forall_mem_cons.mp h
    obtain ⟨mode, hmode⟩ := scan_section_of_readable hsec s
    rw [List.flatMap_cons, scan_append, hmode, Option.bind_some]
    exact ih hsecs _

theorem forGenerator_scannedTo (h : sec.Readable) (he : data.forGenerator = yaml.forGenerator) :
    (sec.scannedTo data).forGenerator = (sec.addTo yaml).forGenerator := by
  simp only [ConfData.forGenerator, ConfData.mk.injEq] at he ⊢
  obtain ⟨hnodes, hcomponents, hprofiles, hmodels, hplatform⟩ := he
  cases sec with
  | nodes l hl => exact h.elim
  | platform l hl => exact h.elim
  | components l hl =>
    refine ⟨hnodes, ?_, hprofiles, hmodels, hplatform⟩
    simp only [FileSection.scannedTo, FileSection.addTo, List.map_append, List.map_map, hcomponents]
    congr 1
    refine List.map_congr_left fun comp _ => ?_
    simp [ConfComponent.forGenerator, FileComponent.scanned, FileComponent.data,
      ConfService.forGenerator, FileService.data]
  | models l hl =>
    refine ⟨hnodes, hcomponents, hprofiles, ?_, hplatform⟩
    simp only [FileSection.scannedTo, FileSection.addTo, hmodels]
  | profiles l hl => exact h.elim

theorem forGenerator_sections (secs : List FileSection) (h : ∀ sec ∈ secs, sec.Readable)
    (he : data.forGenerator = yaml.forGenerator) :
    (secs.foldl FileSection.scannedTo data).forGenerator =
      (secs.foldl FileSection.addTo yaml).forGenerator := by
  induction secs generalizing data yaml with
  | nil => exact he
  | cons sec secs ih =>
    obtain ⟨hsec, hsecs⟩ := List.forall_mem_cons.mp h
    exact ih hsecs (forGenerator_scannedTo hsec he)

theorem scanned_eq_data_iff (comp : FileComponent) :
    comp.scanned = comp.data ↔ comp.provides = [] := by
  constructor
  · intro h
    have hprovides : comp.provides.map (fun svc => (⟨svc.name.str, svc.id, none⟩ : ConfService)) =
        comp.provides.map FileService.data := congrArg ConfComponent.provides h
    refine List.eq_nil_iff_forall_not_mem.mpr fun svc hsvc => ?_
    have htype := congrArg ConfService.type (List.map_inj_left.mp hprovides svc hsvc)
    cases htype
  · intro h
    simp [FileComponent.scanned, FileComponent.data, h]

theorem components_scannedTo (secs : List FileSection) (data : ConfData) :
    (secs.foldl FileSection.scannedTo data).components =
      data.components ++ (secs.flatMap FileSection.comps).map FileComponent.scanned := by
  induction secs generalizing data with
  | nil => simp
  | cons sec secs ih =>
    rw [List.foldl_cons, ih]
    cases sec <;> simp [FileSection.scannedTo, FileSection.addTo, FileSection.comps]

theorem components_addTo (secs : List FileSection) (data : ConfData) :
    (secs.foldl FileSection.addTo data).components =
      data.components ++ (secs.flatMap FileSection.comps).map FileComponent.data := by
  induction secs generalizing data with
  | nil => simp
  | cons sec secs ih =>
    rw [List.foldl_cons, ih]
    cases sec <;> simp [FileSection.addTo, FileSection.comps]

theorem scannedTo_eq_addTo (h : sec.Readable) (hprovides : ∀ comp ∈ sec.comps, comp.provides = [])
    (data : ConfData) : sec.scannedTo data = sec.addTo data := by
  cases sec with
  | nodes l hl => exact h.elim
  | platform l hl => exact h.elim
  | components l hl =>
    have hmap : l.map FileComponent.scanned = l.map FileComponent.data :=
      List.map_congr_left fun comp hcomp => (scanned_eq_data_iff comp).mpr (hprovides comp hcomp)
    simp only [FileSection.scannedTo, FileSection.addTo, hmap]
  | models l hl => rfl
  | profiles l hl => exact h.elim

end YamlFallback

open YamlFallback

/-- The reader without a YAML library reads from a file what the generator reads from its YAML
meaning if and only if the file is readable, and it reads the whole YAML meaning if and only if
moreover no component provides a service. From a readable file the generator makes the manifests
of its YAML meaning. -/
theorem parseYamlFallback_iff {f : ConfFile} {lines : List Text} (h : f.HasLines lines) :
    ((parseYamlFallback lines).map ConfData.forGenerator = some f.yamlMeaning.forGenerator ↔
      f.Readable) ∧
    (parseYamlFallback lines = some f.yamlMeaning ↔
      f.Readable ∧ ∀ comp ∈ f.comps, comp.provides = []) ∧
    (f.Readable → ∀ order, (parseYamlFallback lines).bind (·.genManifest order) =
      f.yamlMeaning.genManifest order) := by
  have hreadable (hparse : (parseYamlFallback lines).map ConfData.forGenerator =
      some f.yamlMeaning.forGenerator) : f.Readable := by
    rw [parseYamlFallback_eq h, Option.map_map] at hparse
    obtain ⟨s', hscan, he⟩ := Option.map_eq_some_iff.mp hparse
    exact (scan_sections f.sections hscan ⟨le_rfl, le_rfl, rfl, rfl, rfl⟩ he).1
  have hparse (hf : f.Readable) : parseYamlFallback lines =
      some (f.sections.foldl FileSection.scannedTo ⟨[], [], [], [], []⟩) := by
    obtain ⟨mode, hmode⟩ := scan_sections_of_readable f.sections hf ⟨none, ⟨[], [], [], [], []⟩⟩
    rw [parseYamlFallback_eq h, ConfFile.entries, hmode]
    rfl
  have hgenerator (hf : f.Readable) :
      (f.sections.foldl FileSection.scannedTo ⟨[], [], [], [], []⟩).forGenerator =
        f.yamlMeaning.forGenerator := forGenerator_sections f.sections hf rfl
  refine ⟨⟨hreadable, fun hf => ?_⟩, ?_, fun hf order => ?_⟩
  · rw [hparse hf, Option.map_some, hgenerator hf]
  · constructor
    · intro he
      have hf : f.Readable := hreadable (by rw [he]; rfl)
      refine ⟨hf, fun comp hcomp => (scanned_eq_data_iff comp).mp ?_⟩
      rw [hparse hf] at he
      have hcomps := congrArg ConfData.components (Option.some.inj he)
      rw [ConfFile.yamlMeaning, components_scannedTo, components_addTo] at hcomps
      exact List.map_inj_left.mp (List.append_cancel_left hcomps) comp hcomp
    · rintro ⟨hf, hprovides⟩
      rw [hparse hf, ConfFile.yamlMeaning]
      congr 1
      refine List.foldl_ext _ _ _ fun data sec hsec => ?_
      refine scannedTo_eq_addTo (hf sec hsec) (fun comp hcomp => hprovides comp ?_) data
      exact List.mem_flatMap.mpr ⟨sec, hsec, hcomp⟩
  · rw [hparse hf, Option.bind_some]
    exact ConfData.genManifest_congr _ order (hgenerator hf)

/-- A file with a comment and a blank line between its sections. -/
def instanceLines : List Text :=
  ["# instances\n".toList, "models:\n".toList, "  - name: \"Model1\"\n".toList,
    "    lib: \"libcomp-1.so\"\n".toList, "\n".toList, "components:\n".toList,
    "  - name: \"Comp-1\"\n".toList, "    model: \"Model1\"\n".toList, "    id: 1\n".toList,
    "    provides:\n".toList,
    "      - \x7b name: \"SVC_MGMT\", id: 101, type: \"remote\" \x7d\n".toList,
    "    requires:\n".toList, "      - \"SVC_LOG\"\n".toList]

def instanceFile : ConfFile where
  sections :=
    [.models [⟨⟨"Model1".toList, by decide⟩, ⟨"libcomp-1.so".toList, by decide⟩⟩] (by simp),
      .components [⟨⟨"Comp-1".toList, by decide⟩, ⟨"Model1".toList, by decide⟩, 1,
        [⟨⟨"SVC_MGMT".toList, by decide⟩, 101, .remote⟩],
        [⟨"SVC_LOG".toList, by decide⟩]⟩] (by simp)]
  keys_nodup := by decide

theorem parseYamlFallback_instanceFile :
    (parseYamlFallback instanceLines).map ConfData.forGenerator =
        some instanceFile.yamlMeaning.forGenerator ∧
      parseYamlFallback instanceLines ≠ some instanceFile.yamlMeaning ∧
      ∀ order, (parseYamlFallback instanceLines).bind (·.genManifest order) =
        instanceFile.yamlMeaning.genManifest order := by
  have hlines : instanceFile.HasLines instanceLines := by decide +kernel
  have hreadable : instanceFile.Readable := by decide
  obtain ⟨hgenerator, hall, hmanifests⟩ := parseYamlFallback_iff hlines
  refine ⟨hgenerator.mpr hreadable, fun he => ?_, hmanifests hreadable⟩
  exact absurd ((hall.mp he).2 _ List.mem_cons_self) (List.cons_ne_nil _ _)

/-- `conf/nodes/proc_a.yaml` -/
def procALines : List Text :=
  ["nodes:\n".toList, "  - name: \"ProcA\"\n".toList,
    "    uds_path: \"/tmp/nos_proc_A.sock\"\n".toList,
    "    buffer_profile: \"lite_mgmt\"\n".toList, "    busy_poll_cycles: 200\n".toList,
    "    threads:\n".toList, "      - name: \"Worker-1\"\n".toList,
    "        components: [\"Comp-1\", \"Comp-3\", \"Comp-Ping\", \"Comp-RemotePing\"]\n".toList,
    "      - name: \"Worker-2\"\n".toList,
    "        components: [\"Comp-2\", \"Comp-5\", \"Comp-Pong\"]\n".toList]

def procAFile : ConfFile where
  sections :=
    [.nodes [⟨⟨"ProcA".toList, by decide⟩, ⟨"/tmp/nos_proc_A.sock".toList, by decide⟩,
      some ⟨"lite_mgmt".toList, by decide⟩, some 200,
      [⟨⟨"Worker-1".toList, by decide⟩, [⟨"Comp-1".toList, by decide⟩,
          ⟨"Comp-3".toList, by decide⟩, ⟨"Comp-Ping".toList, by decide⟩,
          ⟨"Comp-RemotePing".toList, by decide⟩], by simp⟩,
        ⟨⟨"Worker-2".toList, by decide⟩, [⟨"Comp-2".toList, by decide⟩,
          ⟨"Comp-5".toList, by decide⟩, ⟨"Comp-Pong".toList, by decide⟩], by simp⟩],
      by simp⟩] (by simp)]
  keys_nodup := by decide

/-- A thread is taken for a node, which has no threads whose components could be entered. -/
theorem not_parseYamlFallback_procA :
    procAFile.HasLines procALines ∧ parseYamlFallback procALines = none := by
  constructor
  · decide +kernel
  · exact Option.isNone_iff_eq_none.mp (by decide +kernel)

end GeminiNOS

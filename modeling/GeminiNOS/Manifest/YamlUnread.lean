import GeminiNOS.Manifest.YamlSections

/-! # Nodes, the platform and buffer profiles

The sections that the reader without a YAML library never reads as they are. A thread
becomes a node, the services of the platform are not read, and the bins of a profile get
another key.
-/

namespace GeminiNOS

open Foundations Foundations.Text

namespace YamlFallback

variable {data : ConfData} {s' : YamlState} {content : Text} {indent : ℕ}

theorem length_modifyLast {α : Type*} {f : α → Option α} {l l' : List α}
    (h : modifyLast f l = some l') : l'.length = l.length := by
  obtain ⟨a, ha, h⟩ := Option.bind_eq_some_iff.mp h
  obtain ⟨b, -, h⟩ := Option.bind_eq_some_iff.mp h
  obtain rfl := Option.some.inj h
  have hpos := List.length_pos_of_mem (List.mem_of_getLast? ha)
  rw [List.length_append, List.length_dropLast, List.length_singleton]
  omega

theorem scan_nodeLine (hheader : headerMode content = none)
    (h : scanContent ⟨some .nodes, data⟩ indent content = some s') :
    ∃ ns, s' = ⟨some .nodes, { data with nodes := ns }⟩ ∧
      ns.length = data.nodes.length + if "- name:".toList <+: content then 1 else 0 := by
  rw [scanContent, hheader] at h
  obtain ⟨data', hdata, rfl⟩ := Option.map_eq_some_iff.mp h
  rw [scanMode, scanNodes] at hdata
  split at hdata
  · obtain ⟨name, -, hdata⟩ := Option.bind_eq_some_iff.mp hdata
    obtain rfl := Option.some.inj hdata
    refine ⟨_, rfl, ?_⟩
    rw [if_pos ‹_›, List.length_append, List.length_singleton]
  · rename_i hname
    rw [if_neg hname]
    have hmodify {α : Type} {v : Option α} {f : α → ConfNode → Option ConfNode}
        (hf : (v.bind fun a =>
          (modifyLast (f a) data.nodes).bind fun nodes => some { data with nodes := nodes }) =
            some data') :
        ∃ ns, (⟨some .nodes, data'⟩ : YamlState) = ⟨some .nodes, { data with nodes := ns }⟩ ∧
          ns.length = data.nodes.length + 0 := by
      obtain ⟨a, -, hf⟩ := Option.bind_eq_some_iff.mp hf
      obtain ⟨ns, hns, hf⟩ := Option.bind_eq_some_iff.mp hf
      obtain rfl := Option.some.inj hf
      exact ⟨ns, rfl, length_modifyLast hns⟩
    split at hdata
    · exact hmodify hdata
    split at hdata
    · exact hmodify hdata
    split at hdata
    · exact hmodify hdata
    split at hdata
    · exact hmodify hdata
    split at hdata
    · exact hmodify hdata
    · obtain rfl := Option.some.inj hdata
      exact ⟨_, rfl, rfl⟩

def isName (e : Entry) : Bool := decide ("- name:".toList <+: e.2)

theorem scan_nodeLines (entries : List Entry) (hheader : ∀ e ∈ entries, headerMode e.2 = none)
    (h : scan ⟨some .nodes, data⟩ entries = some s') :
    ∃ ns, s' = ⟨some .nodes, { data with nodes := ns }⟩ ∧
      ns.length = data.nodes.length + entries.countP isName := by
  induction entries generalizing data with
  | nil =>
    obtain rfl := Option.some.inj h
    exact ⟨data.nodes, rfl, rfl⟩
  | cons e entries ih =>
    obtain ⟨he, hentries⟩ := List.forall_mem_cons.mp hheader
    rw [scan_cons] at h
    obtain ⟨s₁, hs₁, h⟩ := Option.bind_eq_some_iff.mp h
    obtain ⟨ns₁, rfl, hlength₁⟩ := scan_nodeLine he hs₁
    obtain ⟨ns, rfl, hlength⟩ := ih hentries h
    refine ⟨ns, rfl, ?_⟩
    rw [hlength, hlength₁]
    simp only [List.countP_cons, isName, decide_eq_true_eq]
    omega

theorem headerMode_thread (t : FileThread) : ∀ e ∈ t.entries, headerMode e.2 = none := by
  simp only [FileThread.entries, List.mem_cons, List.not_mem_nil, or_false]
  rintro e (rfl | rfl) <;> exact headerMode_of_space (by simp)

theorem headerMode_node (n : FileNode) : ∀ e ∈ n.entries, headerMode e.2 = none := by
  simp only [FileNode.entries, List.mem_append, List.mem_cons, List.not_mem_nil, or_false,
    List.mem_map, Option.mem_toList, List.mem_flatMap]
  rintro e ((((rfl | rfl) | ⟨t, -, rfl⟩) | ⟨k, -, rfl⟩) | rfl | ⟨t, -, he⟩)
  · exact headerMode_of_space (by simp)
  · exact headerMode_of_space (by simp)
  · exact headerMode_of_space (by simp)
  · exact headerMode_of_space (by simp)
  · rfl
  · exact headerMode_thread t e he

/-- The node and each of its threads begin with a name. -/
theorem two_le_countP_node (n : FileNode) : 2 ≤ n.entries.countP isName := by
  have hnode : 1 ≤ [((2, "- name: ".toList ++ n.name.quote) : Entry),
      (4, "uds_path: ".toList ++ n.udsPath.quote)].countP isName := by
    refine List.one_le_countP_iff.mpr ⟨_, List.mem_cons_self, ?_⟩
    simp [isName]
  have hthread : 1 ≤ (n.threads.flatMap FileThread.entries).countP isName := by
    obtain ⟨t, ht⟩ := List.exists_mem_of_ne_nil _ n.threads_ne_nil
    refine List.one_le_countP_iff.mpr ⟨(6, "- name: ".toList ++ t.name.quote), ?_, ?_⟩
    · exact List.mem_flatMap.mpr ⟨t, ht, List.mem_cons_self⟩
    · simp [isName]
  simp only [FileNode.entries, List.countP_append, List.countP_cons (l := n.threads.flatMap _)]
  omega

theorem scan_nodes (l : List FileNode) (hl : l ≠ [])
    (h : scan ⟨some .nodes, data⟩ (l.flatMap FileNode.entries) = some s') :
    ∃ ns, s' = ⟨some .nodes, { data with nodes := ns }⟩ ∧
      data.nodes.length + l.length < ns.length := by
  have hheader : ∀ e ∈ l.flatMap FileNode.entries, headerMode e.2 = none := fun e he => by
    obtain ⟨n, -, he⟩ := List.mem_flatMap.mp he
    exact headerMode_node n e he
  have hcount : ∀ l : List FileNode,
      2 * l.length ≤ (l.flatMap FileNode.entries).countP isName := fun l => by
    induction l with
    | nil => exact le_rfl
    | cons n l ih =>
      rw [List.flatMap_cons, List.countP_append, List.length_cons]
      have := two_le_countP_node n
      omega
  obtain ⟨ns, rfl, hlength⟩ := scan_nodeLines _ hheader h
  have hpos := List.length_pos_iff.mpr hl
  have := hcount l
  exact ⟨ns, rfl, by omega⟩

theorem scan_platform (l : List FileService) (hl : l ≠ []) (s : YamlState) :
    scan s (FileSection.platform l hl).entries = some ⟨some .platform, s.data⟩ := by
  have hservices : scan ⟨some .platform, s.data⟩ (l.map (FileService.entry 4)) =
      some ⟨some .platform, s.data⟩ := by
    induction l with
    | nil => rfl
    | cons svc l ih =>
      have hspace : ' ' ∈ (svc.entry 4).2 := by simp [FileService.entry]
      have hindent : ¬("- \x7b name:".toList <+: (svc.entry 4).2 ∧ 4 < (svc.entry 4).1) :=
        fun h => absurd h.2 (lt_irrefl 4)
      rw [List.map_cons, scan_cons, scanContent_of_space hspace, scanMode, scanPlatform,
        if_neg hindent, Option.map_some, Option.bind_some]
      cases l with
      | nil => rfl
      | cons svc' l => exact ih (List.cons_ne_nil svc' l)
  exact hservices

/-- The bin that is read from a line: the brace stays with its first key. -/
def scannedBin (b : FileBin) : ConfBin :=
  ((∅ : ConfBin).insert "- \x7b size" b.size).insert "count" b.count

theorem scannedBin_ne (b b' : FileBin) : scannedBin b ≠ b'.data := by
  intro h
  have hscanned : (scannedBin b).lookup "size" = none := by
    rw [scannedBin, AList.lookup_insert_ne (by decide), AList.lookup_insert_ne (by decide)]
    rfl
  have hdata : b'.data.lookup "size" = some (b'.size : ℤ) := by
    rw [FileBin.data, AList.lookup_insert_ne (by decide), AList.lookup_insert]
  rw [h, hdata] at hscanned
  cases hscanned

theorem toInt?_strip_digits (n : ℕ) {w : Text} (hw : w.all isSpace = true) :
    toInt? (strip (' ' :: (digits n ++ w))) = some (n : ℤ) := by
  have hstrip := stripOf_append (u := [' ']) rfl hw (trimmed_digits n)
  have hint := toInt?_digits (u := []) (w := []) n rfl rfl
  rw [List.append_nil] at hint
  exact (congrArg toInt? hstrip).trans hint

theorem split_bin (b : FileBin) :
    split ',' (stripOf (· ∈ ['{', '}']) (strip b.entry.2)) =
      ["- \x7b size".toList ++ ':' :: ' ' :: (digits b.size ++ []),
        (List.replicate (b.pad + 1) ' ' ++ "count".toList) ++
          ':' :: ' ' :: (digits b.count ++ [' '])] := by
  have hcomma (n : ℕ) : ',' ∉ digits n := notMem_digits (by decide)
  have hstrip := stripOf_append (u := []) (w := []) rfl rfl (solid_bin b).trimmed
  have hbody : b.entry.2 = (("- \x7b size: ".toList ++ digits b.size) ++
      ',' :: ((List.replicate (b.pad + 1) ' ' ++ "count".toList) ++
        ':' :: ' ' :: (digits b.count ++ [' ']))) ++ ['}'] := by
    simp [FileBin.entry]
  have hbraces := stripOf_append (p := (· ∈ ['{', '}'])) (u := []) (w := ['}'])
    (s := ("- \x7b size: ".toList ++ digits b.size) ++
      ',' :: ((List.replicate (b.pad + 1) ' ' ++ "count".toList) ++
        ':' :: ' ' :: (digits b.count ++ [' ']))) rfl rfl ?_
  · rw [List.nil_append, ← hbody] at hbraces
    rw [List.nil_append, List.append_nil] at hstrip
    rw [strip, hstrip, hbraces, split_append, split_of_notMem]
    · simp
    · simp [hcomma, List.mem_replicate]
    · simp [hcomma]
  · refine ⟨fun c hc => ?_, fun c hc => ?_⟩
    · obtain rfl : '-' = c := by simpa using hc
      decide
    · obtain rfl : ' ' = c := by simpa [List.getLast?_cons, List.getLast?_append] using hc
      decide

theorem inlineBin_entry (b : FileBin) : inlineBin b.entry.2 = some (scannedBin b) := by
  have hcolon (n : ℕ) : ':' ∉ digits n := notMem_digits (by decide)
  have hsize : binPart ∅ ("- \x7b size".toList ++ ':' :: ' ' :: (digits b.size ++ [])) =
      some ((∅ : ConfBin).insert "- \x7b size" b.size) := by
    rw [binPart, split_append (by decide), split_of_notMem (by simp [hcolon])]
    simp only [toInt?_strip_digits b.size (w := []) rfl, Option.map_some]
    rfl
  have hkey : strip (List.replicate (b.pad + 1) ' ' ++ "count".toList) = "count".toList := by
    have htrimmed : Trimmed isSpace "count".toList := by
      refine ⟨fun c hc => ?_, fun c hc => ?_⟩ <;>
      · obtain rfl := Option.some.inj hc
        decide
    have hstrip := stripOf_append (w := []) (all_isSpace_replicate (b.pad + 1)) rfl htrimmed
    rwa [List.append_nil] at hstrip
  have hcount (bin : ConfBin) : binPart bin ((List.replicate (b.pad + 1) ' ' ++ "count".toList) ++
      ':' :: ' ' :: (digits b.count ++ [' '])) = some (bin.insert "count" b.count) := by
    rw [binPart, split_append (by simp [List.mem_replicate]), split_of_notMem (by simp [hcolon])]
    simp only [toInt?_strip_digits b.count (w := [' ']) rfl, Option.map_some, hkey]
    rfl
  rw [inlineBin, split_bin]
  simp only [List.foldlM_cons, List.foldlM_nil, hsize, hcount, Option.bind_eq_bind,
    Option.bind_some]
  rfl

theorem scan_bins (l : List FileBin) (data : ConfData) (p : ConfProfile) :
    scan ⟨some .profiles, { data with profiles := data.profiles ++ [p] }⟩ (l.map FileBin.entry) =
      some ⟨some .profiles, { data with
        profiles := data.profiles ++ [{ p with bins := p.bins ++ l.map scannedBin }] }⟩ := by
  induction l generalizing p with
  | nil => simp
  | cons b l ih =>
    have hspace : ' ' ∈ b.entry.2 := by simp [FileBin.entry]
    have hname : ¬"- name:".toList <+: b.entry.2 := by simp [FileBin.entry]
    have hsize : "size:".toList <:+: b.entry.2 := ⟨"- \x7b ".toList, _, rfl⟩
    have hline : scanContent ⟨some .profiles, { data with profiles := data.profiles ++ [p] }⟩
        b.entry.1 b.entry.2 = some ⟨some .profiles, { data with
          profiles := data.profiles ++ [{ p with bins := p.bins ++ [scannedBin b] }] }⟩ := by
      rw [scanContent_of_space hspace, scanMode, scanProfiles, if_neg hname, if_pos hsize,
        inlineBin_entry]
      simp [modifyLast]
    rw [List.map_cons, scan_cons, hline, Option.bind_some, ih]
    simp

theorem scan_profile (data : ConfData) (p : FileProfile) :
    ∃ name, scan ⟨some .profiles, data⟩ p.entries = some ⟨some .profiles, { data with
      profiles := data.profiles ++ [⟨name, p.bins.map scannedBin⟩] }⟩ := by
  obtain ⟨name, hname, -⟩ := exists_quotedValue (k := "- name".toList) (by decide) p.name
  have hvalue : quotedValue ("- name: ".toList ++ p.name.quote) = some name := hname
  have hnameLine : scanContent ⟨some .profiles, data⟩ 2 ("- name: ".toList ++ p.name.quote) =
      some ⟨some .profiles, { data with profiles := data.profiles ++ [⟨name, []⟩] }⟩ := by
    rw [scanContent_of_space (by simp), scanMode, scanProfiles, if_pos (by simp), hvalue]
    rfl
  have hbinsLine (s : YamlState) (hs : s.mode = some .profiles) :
      scanContent s 4 "bins:".toList = some s := by
    obtain ⟨mode, data⟩ := s
    obtain rfl := hs
    rfl
  refine ⟨name, ?_⟩
  rw [FileProfile.entries, List.cons_append, scan_cons, hnameLine, Option.bind_some,
    List.cons_append, scan_cons, hbinsLine _ rfl, Option.bind_some, List.nil_append, scan_bins]
  rfl

theorem scan_profiles (l : List FileProfile) (data : ConfData) :
    ∃ ps, scan ⟨some .profiles, data⟩ (l.flatMap FileProfile.entries) =
        some ⟨some .profiles, { data with profiles := data.profiles ++ ps }⟩ ∧
      List.Forall₂ (fun p p' => p' ≠ p.data) l ps := by
  induction l generalizing data with
  | nil => exact ⟨[], by simp, .nil⟩
  | cons p l ih =>
    obtain ⟨name, hname⟩ := scan_profile data p
    obtain ⟨ps, hps, hall⟩ :=
      ih { data with profiles := data.profiles ++ [⟨name, p.bins.map scannedBin⟩] }
    refine ⟨⟨name, p.bins.map scannedBin⟩ :: ps, ?_, .cons (fun he => ?_) hall⟩
    · rw [List.flatMap_cons, scan_append, hname, Option.bind_some, hps]
      simp
    · have hbins : p.bins.map scannedBin = p.bins.map FileBin.data := congrArg ConfProfile.bins he
      obtain ⟨b, hb⟩ := List.exists_mem_of_ne_nil _ p.bins_ne_nil
      exact scannedBin_ne b b (List.map_inj_left.mp hbins b hb)

end YamlFallback

end GeminiNOS

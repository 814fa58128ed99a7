import GeminiNOS.Manifest.YamlFallback
import GeminiNOS.Manifest.YamlFile

/-! # Lines of configuration files

What the reader without a YAML library makes of the lines that configuration files
have: of the texts between quotes and the numbers, and of the lines of each section.
-/

namespace GeminiNOS

open Foundations Foundations.Text

namespace YamlFallback

/-- The reader goes through the lines with the given indentations and contents. -/
def scan (s : YamlState) (entries : List Entry) : Option YamlState :=
  entries.foldlM (fun s e => scanContent s e.1 e.2) s

@[simp]
theorem scan_nil (s : YamlState) : scan s [] = some s := rfl

@[simp]
theorem scan_cons (s : YamlState) (e : Entry) (entries : List Entry) :
    scan s (e :: entries) = (scanContent s e.1 e.2).bind (scan · entries) := by
  rw [scan, List.foldlM_cons]
  rfl

@[simp]
theorem scan_append (s : YamlState) (entries entries' : List Entry) :
    scan s (entries ++ entries') = (scan s entries).bind (scan · entries') := by
  rw [scan, List.foldlM_append]
  rfl

abbrev Ends (content : Text) : Prop := content.getLast?.any (fun c => !isSpace c) = true

theorem Ends.append {b : Text} (h : Ends b) (a : Text) : Ends (a ++ b) := by
  have hb : b ≠ [] := by
    rintro rfl
    cases h
  rw [Ends, List.getLast?_append_of_ne_nil a hb]
  exact h

theorem ends_quote (t : PlainText) : Ends t.quote :=
  Ends.append (b := ['"']) (by decide) ('"' :: t.chars)

theorem ends_digits (n : ℕ) : Ends (digits n) := by
  obtain ⟨c, hc⟩ := Option.ne_none_iff_exists'.mp
    (List.getLast?_eq_none_iff.not.mpr (Nat.toDigits_ne_nil (n := n) (b := 10)))
  rw [Ends, hc]
  simp [(trimmed_digits n).2 c hc]

/-- The content of a line that is neither blank nor a comment. -/
structure Solid (content : Text) : Prop where
  head : content.head?.any (fun c => !isSpace c && c != '#') = true
  ends : Ends content

theorem Solid.trimmed {content : Text} (h : Solid content) : Trimmed isSpace content := by
  refine ⟨fun c hc => ?_, fun c hc => ?_⟩
  · have hhead := h.head
    simp only [hc, Option.any_some, Bool.and_eq_true, Bool.not_eq_true'] at hhead
    exact hhead.1
  · have hends := h.ends
    simpa only [Ends, hc, Option.any_some, Bool.not_eq_true'] using hends

theorem all_isSpace_replicate (n : ℕ) : (List.replicate n ' ').all isSpace = true := by
  refine List.all_eq_true.mpr fun c hc => ?_
  rw [List.eq_of_mem_replicate hc]
  decide

section

variable {e : Entry}

theorem rstrip_line (h : Solid e.2) : rstrip e.line = e.line := by
  refine List.rdropWhile_eq_self_iff.mpr fun hne => ?_
  have hends : Ends e.line := h.ends.append _
  rw [Ends, List.getLast?_eq_getLast_of_ne_nil hne] at hends
  simpa using hends

theorem lstrip_line (h : Solid e.2) : lstrip e.line = e.2 := by
  rw [lstrip, Entry.line,
    List.dropWhile_append_of_pos (List.all_eq_true.mp (all_isSpace_replicate e.1))]
  exact dropWhile_of_head h.trimmed.1

theorem strip_line (h : Solid e.2) : strip e.line = e.2 := by
  have hstrip := stripOf_append (w := []) (all_isSpace_replicate e.1) rfl h.trimmed
  rwa [List.append_nil] at hstrip

theorem scanLine_line (h : Solid e.2) (s : YamlState) :
    scanLine s e.line = scanContent s e.1 e.2 := by
  have hhead := h.head
  have hsignificant : Significant e.line := by
    refine ⟨fun hnil => ?_, fun hbegins => ?_⟩
    · have hlstrip := lstrip_line h
      rw [hnil] at hlstrip
      rw [← hlstrip] at hhead
      cases hhead
    · rw [lstrip_line h] at hbegins
      obtain ⟨t, ht⟩ := hbegins
      rw [← ht] at hhead
      cases hhead
  have hlength : e.line.length - e.2.length = e.1 := by
    rw [Entry.line, List.length_append, List.length_replicate]
    omega
  unfold scanLine
  simp only [rstrip_line h, lstrip_line h, strip_line h, hlength, if_pos hsignificant]

end

theorem isEntryLine_iff (line : Text) : IsEntryLine line ↔ Significant line := by
  unfold IsEntryLine Significant
  refine and_congr_right fun _ => not_congr ?_
  cases lstrip line with
  | nil => simp
  | cons c s => simp [eq_comm]

theorem foldlM_scanLine (lines : List Text) (s : YamlState) :
    lines.foldlM scanLine s = ((lines.map rstrip).filter IsEntryLine).foldlM scanLine s := by
  induction lines generalizing s with
  | nil => rfl
  | cons line lines ih =>
    have hrstrip : rstrip (rstrip line) = rstrip line := List.rdropWhile_idempotent _ _
    rw [List.foldlM_cons, List.map_cons, List.filter_cons]
    by_cases hline : Significant (rstrip line)
    · rw [if_pos (by simpa [isEntryLine_iff] using hline), List.foldlM_cons]
      have hscan : scanLine s line = scanLine s (rstrip line) := by
        simp only [scanLine, hrstrip]
      rw [hscan]
      exact bind_congr fun s' => ih s'
    · rw [if_neg (by simpa [isEntryLine_iff] using hline)]
      have hscan : scanLine s line = some s := if_neg hline
      rw [hscan]
      exact ih s

theorem solid_service (indent : ℕ) (svc : FileService) : Solid (svc.entry indent).2 := by
  have hends : Ends "\" \x7d".toList := by decide
  exact ⟨rfl, ((((((hends.append _).append _).append _).append _).append _).append _)⟩

theorem solid_thread (t : FileThread) : ∀ e ∈ t.entries, Solid e.2 := by
  have hends : Ends "]".toList := by decide
  simp only [FileThread.entries, List.mem_cons, List.not_mem_nil, or_false]
  rintro e (rfl | rfl)
  · exact ⟨rfl, (ends_quote t.name).append _⟩
  · exact ⟨rfl, (hends.append _).append _⟩

theorem solid_node (n : FileNode) : ∀ e ∈ n.entries, Solid e.2 := by
  simp only [FileNode.entries, List.mem_append, List.mem_cons, List.not_mem_nil, or_false,
    List.mem_map, Option.mem_toList, List.mem_flatMap]
  rintro e ((((rfl | rfl) | ⟨t, -, rfl⟩) | ⟨k, -, rfl⟩) | rfl | ⟨t, -, he⟩)
  · exact ⟨rfl, (ends_quote n.name).append _⟩
  · exact ⟨rfl, (ends_quote n.udsPath).append _⟩
  · exact ⟨rfl, (ends_quote t).append _⟩
  · exact ⟨rfl, (ends_digits k).append _⟩
  · exact ⟨rfl, by decide⟩
  · exact solid_thread t e he

theorem solid_component (c : FileComponent) : ∀ e ∈ c.entries, Solid e.2 := by
  simp only [FileComponent.entries, List.mem_append, List.mem_cons, List.not_mem_nil, or_false,
    List.mem_ite_nil_left, List.mem_map]
  rintro e (((rfl | rfl | rfl) | ⟨-, rfl | ⟨svc, -, rfl⟩⟩) | ⟨-, rfl | ⟨t, -, rfl⟩⟩)
  · exact ⟨rfl, (ends_quote c.name).append _⟩
  · exact ⟨rfl, (ends_quote c.model).append _⟩
  · exact ⟨rfl, (ends_digits c.id).append _⟩
  · exact ⟨rfl, by decide⟩
  · exact solid_service 6 svc
  · exact ⟨rfl, by decide⟩
  · exact ⟨rfl, (ends_quote t).append _⟩

theorem solid_model (m : FileModel) : ∀ e ∈ m.entries, Solid e.2 := by
  simp only [FileModel.entries, List.mem_cons, List.not_mem_nil, or_false]
  rintro e (rfl | rfl)
  · exact ⟨rfl, (ends_quote m.name).append _⟩
  · exact ⟨rfl, (ends_quote m.lib).append _⟩

theorem solid_bin (b : FileBin) : Solid b.entry.2 := by
  have hends : Ends " \x7d".toList := by decide
  have hcount : Ends ("count: ".toList ++ (digits b.count ++ " \x7d".toList)) :=
    (hends.append _).append _
  have hcomma := (hcount.append (List.replicate (b.pad + 1) ' ')).append [',']
  exact ⟨rfl, (hcomma.append (digits b.size)).append "- \x7b size: ".toList⟩

theorem solid_profile (p : FileProfile) : ∀ e ∈ p.entries, Solid e.2 := by
  simp only [FileProfile.entries, List.mem_append, List.mem_cons, List.not_mem_nil, or_false,
    List.mem_map]
  rintro e ((rfl | rfl) | ⟨b, -, rfl⟩)
  · exact ⟨rfl, (ends_quote p.name).append _⟩
  · exact ⟨rfl, by decide⟩
  · exact solid_bin b

theorem solid_section (s : FileSection) : ∀ e ∈ s.entries, Solid e.2 := by
  cases s <;> simp only [FileSection.entries, List.mem_cons, List.mem_flatMap, List.mem_map]
  case nodes l h =>
    rintro e (rfl | ⟨n, -, he⟩)
    · exact ⟨rfl, by decide⟩
    · exact solid_node n e he
  case platform l h =>
    rintro e (rfl | rfl | ⟨svc, -, rfl⟩)
    · exact ⟨rfl, by decide⟩
    · exact ⟨rfl, by decide⟩
    · exact solid_service 4 svc
  case components l h =>
    rintro e (rfl | ⟨c, -, he⟩)
    · exact ⟨rfl, by decide⟩
    · exact solid_component c e he
  case models l h =>
    rintro e (rfl | ⟨m, -, he⟩)
    · exact ⟨rfl, by decide⟩
    · exact solid_model m e he
  case profiles l h =>
    rintro e (rfl | ⟨p, -, he⟩)
    · exact ⟨rfl, by decide⟩
    · exact solid_profile p e he

/-- The reader goes through the entries of a file, whatever blank lines and comments there are. -/
theorem parseYamlFallback_eq {f : ConfFile} {lines : List Text} (h : f.HasLines lines) :
    parseYamlFallback lines =
      (scan ⟨none, ⟨[], [], [], [], []⟩⟩ f.entries).map YamlState.data := by
  have hsolid : ∀ e ∈ f.entries, Solid e.2 := fun e he => by
    obtain ⟨s, -, he⟩ := List.mem_flatMap.mp he
    exact solid_section s e he
  rw [parseYamlFallback, foldlM_scanLine, h, scan]
  congr 1
  generalize YamlState.mk none _ = s
  generalize f.entries = entries at hsolid ⊢
  induction entries generalizing s with
  | nil => rfl
  | cons e entries ih =>
    rw [List.map_cons, List.foldlM_cons, List.foldlM_cons, scanLine_line (hsolid e (by simp))]
    exact bind_congr fun s' => ih s' fun e he => hsolid e (List.mem_cons_of_mem _ he)

section

variable {k pat a b : Text} {t : PlainText} {sep : Char}

theorem ne_quote_of_mem_chars {c : Char} (h : c ∈ t.chars) : c ≠ '"' := by
  have hplain := List.all_eq_true.mp t.plain c h
  simp only [isPlain, decide_eq_true_eq] at hplain
  exact hplain.2.2.1

theorem strip_quote (t : PlainText) : strip (' ' :: t.quote) = t.quote := by
  have htrimmed : Trimmed isSpace t.quote := by
    refine ⟨fun c hc => ?_, fun c hc => ?_⟩
    · obtain rfl := Option.some.inj hc
      decide
    · have hlast : t.quote.getLast? = some '"' := List.getLast?_concat (l := '"' :: t.chars)
      obtain rfl := Option.some.inj (hlast.symm.trans hc)
      decide
  have hstrip := stripOf_append (u := [' ']) (w := []) rfl rfl htrimmed
  rwa [List.append_nil] at hstrip

theorem unquote_quote (t : PlainText) : stripOf (· = '"') t.quote = t.chars := by
  have htrimmed : Trimmed (· = '"') t.chars := by
    refine ⟨fun c hc => ?_, fun c hc => ?_⟩
    · simpa using ne_quote_of_mem_chars (List.mem_of_head? hc)
    · simpa using ne_quote_of_mem_chars (List.mem_of_getLast? hc)
  exact stripOf_append (u := ['"']) (w := ['"']) rfl rfl htrimmed

/-- What stands between quotes behind a separator is read as it is if and only if it does not have
the separator. -/
theorem exists_unquoted (hk : sep ∉ k) (hsep : sep ≠ ' ' ∧ sep ≠ '"') (t : PlainText) :
    ∃ v, (split sep (k ++ sep :: ' ' :: t.quote))[1]?.map
        (fun s => String.ofList (stripOf (· = '"') (strip s))) = some v ∧
      (v = t.str ↔ sep ∉ t.chars) := by
  rw [split_append hk]
  by_cases ht : sep ∈ t.chars
  · obtain ⟨s, ts, hs⟩ := split_cons_of_ne (s := t.quote) hsep.1.symm
    refine ⟨_, by rw [hs]; rfl, iff_of_false (fun he => ?_) (not_not_intro ht)⟩
    rw [← String.ofList_injective he] at ht
    have hmem := mem_of_mem_stripOf (mem_of_mem_stripOf ht)
    have hpart : ' ' :: s ∈ split sep (' ' :: t.quote) := by
      rw [hs]
      exact List.mem_cons_self
    exact notMem_of_mem_split hpart hmem
  · have hquote : sep ∉ ' ' :: t.quote := by
      simp [PlainText.quote, ht, hsep.1, hsep.2]
    refine ⟨t.str, ?_, iff_of_true rfl ht⟩
    rw [split_of_notMem hquote]
    simp only [List.getElem?_cons_succ, List.getElem?_cons_zero, Option.map_some, strip_quote,
      unquote_quote, PlainText.str]

theorem exists_quotedValue (hk : ':' ∉ k) (t : PlainText) :
    ∃ v, quotedValue (k ++ ':' :: ' ' :: t.quote) = some v ∧ (v = t.str ↔ ':' ∉ t.chars) := by
  obtain ⟨v, hv, hiff⟩ := exists_unquoted hk (by decide) t
  refine ⟨v, ?_, hiff⟩
  rw [quotedValue, value, Option.map_map]
  exact hv

theorem exists_itemValue (t : PlainText) :
    ∃ v, itemValue ("- ".toList ++ t.quote) = some v ∧ (v = t.str ↔ '-' ∉ t.chars) :=
  exists_unquoted (k := []) List.not_mem_nil (by decide) t

theorem intValue_digits (hk : ':' ∉ k) (n : ℕ) :
    intValue (k ++ ':' :: ' ' :: digits n) = some (n : ℤ) := by
  have hcolon : ':' ∉ ' ' :: digits n := by
    simp [notMem_digits (show ':'.isDigit = false by decide)]
  have hstrip := stripOf_append (u := [' ']) (w := []) rfl rfl
    (trimmed_digits n)
  have hint := toInt?_digits (u := []) (w := []) n rfl rfl
  rw [List.append_nil] at hstrip hint
  rw [intValue, value, split_append hk, split_of_notMem hcolon]
  simp only [List.getElem?_cons_succ, List.getElem?_cons_zero, Option.map_some, Option.bind_some,
    strip]
  rw [show ' ' :: digits n = [' '] ++ digits n from rfl, hstrip]
  exact hint

theorem intValue_quote (hk : ':' ∉ k) (t : PlainText) :
    intValue (k ++ ':' :: ' ' :: t.quote) = none := by
  obtain ⟨s, ts, hs⟩ := split_cons_of_ne (s := t.chars ++ ['"']) (show '"' ≠ ':' by decide)
  have hsplit : split ':' (' ' :: t.quote) = (' ' :: '"' :: s) :: ts := by
    rw [PlainText.quote, split, if_neg (by decide), hs]
    rfl
  obtain ⟨s', hs'⟩ := exists_stripOf_cons (s := s) (show isSpace '"' = false by decide)
  obtain ⟨s'', hs''⟩ := exists_stripOf_cons (s := s') (show isSpace '"' = false by decide)
  have hstrip : strip (strip (' ' :: '"' :: s)) = '"' :: s'' := by
    rw [strip, strip, stripOf_cons_of_pos (by decide), hs', hs'']
  rw [intValue, value, split_append hk, hsplit]
  exact toInt?_of_quote hstrip

theorem infix_quote_iff (hpat : '"' ∉ pat) :
    pat <:+: a ++ (t.quote ++ b) ↔ pat <:+: a ∨ pat <:+: t.chars ∨ pat <:+: b := by
  rw [PlainText.quote, List.cons_append, infix_append_iff hpat, List.append_assoc,
    List.singleton_append, infix_append_iff hpat]

theorem infix_quote_end_iff (hpat : '"' ∉ pat) (hnil : pat ≠ []) :
    pat <:+: a ++ t.quote ↔ pat <:+: a ∨ pat <:+: t.chars := by
  have h := infix_quote_iff (a := a) (b := []) (t := t) hpat
  rwa [List.append_nil, List.infix_nil, or_iff_left hnil] at h

end

end YamlFallback

end GeminiNOS

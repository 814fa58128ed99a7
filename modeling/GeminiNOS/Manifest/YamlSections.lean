import GeminiNOS.Manifest.YamlScan

/-! # Components and models

The effect of the sections of components and of models on the data of the reader without
a YAML library. The names of components and models are cut at a colon, those of required
services at a hyphen, and a name may be taken for another key.
-/

namespace GeminiNOS

open Foundations Foundations.Text

/-- The reader without a YAML library reads a service of a component: its name is not empty, it is
not taken for another key, and no other id is found in it. -/
def FileService.Readable (svc : FileService) : Prop :=
  svc.name.chars ≠ [] ∧ ¬"model:".toList <:+: svc.name.chars ∧
    ¬"provides:".toList <:+: svc.name.chars ∧
    ∀ n ∈ YamlFallback.search YamlFallback.matchId svc.name.chars, n = svc.id

/-- It reads the name of a required service: the name has no hyphen, and it is not taken for another
key. -/
def PlainText.RequireReadable (t : PlainText) : Prop :=
  '-' ∉ t.chars ∧ ¬"model:".toList <:+: t.chars ∧ ¬"provides:".toList <:+: t.chars ∧
    ¬"requires:".toList <:+: t.chars

def FileComponent.Readable (c : FileComponent) : Prop :=
  ':' ∉ c.name.chars ∧ ':' ∉ c.model.chars ∧ (∀ svc ∈ c.provides, svc.Readable) ∧
    ∀ t ∈ c.requires, t.RequireReadable

def FileModel.Readable (m : FileModel) : Prop := ':' ∉ m.name.chars ∧ ':' ∉ m.lib.chars

def FileSection.Readable : FileSection → Prop
  | .components l _ => ∀ c ∈ l, c.Readable
  | .models l _ => ∀ m ∈ l, m.Readable
  | .nodes .. | .platform .. | .profiles .. => False

instance (svc : FileService) : Decidable svc.Readable := by
  unfold FileService.Readable
  infer_instance

instance (t : PlainText) : Decidable t.RequireReadable := by
  unfold PlainText.RequireReadable
  infer_instance

instance (c : FileComponent) : Decidable c.Readable := by
  unfold FileComponent.Readable
  infer_instance

instance (m : FileModel) : Decidable m.Readable := by
  unfold FileModel.Readable
  infer_instance

instance (s : FileSection) : Decidable s.Readable := by
  cases s <;> unfold FileSection.Readable <;> infer_instance

/-- The component that it reads, without the types of the services. -/
def FileComponent.scanned (c : FileComponent) : ConfComponent :=
  { c.data with provides := c.provides.map fun svc => ⟨svc.name.str, svc.id, none⟩ }

namespace YamlFallback

variable {data : ConfData} {c : ConfComponent} {s' : YamlState} {content : Text} {indent : ℕ}

theorem headerMode_of_space (h : ' ' ∈ content) : headerMode content = none := by
  have hne (header : String) (hheader : ' ' ∉ header.toList) : content ≠ header.toList :=
    fun he => hheader (he ▸ h)
  unfold headerMode
  rw [if_neg (hne _ (by decide)), if_neg (hne _ (by decide)), if_neg (hne _ (by decide)),
    if_neg (hne _ (by decide)), if_neg (hne _ (by decide)), if_neg (hne _ (by decide))]

theorem scanContent_of_space (h : ' ' ∈ content) (s : YamlState) :
    scanContent s indent content =
      (scanMode s.data indent content s.mode).map fun data => { s with data := data } := by
  rw [scanContent, headerMode_of_space h]

def compState (data : ConfData) (c : ConfComponent) : YamlState :=
  ⟨some .components, { data with components := data.components ++ [c] }⟩

theorem modifyComponent_concat (data : ConfData) (c : ConfComponent)
    (f : ConfComponent → ConfComponent) :
    modifyComponent { data with components := data.components ++ [c] } f =
      some { data with components := data.components ++ [f c] } := by
  simp [modifyComponent, modifyLast]

theorem scan_componentName (data : ConfData) (t : PlainText) :
    ∃ v, scanContent ⟨some .components, data⟩ 2 ("- name: ".toList ++ t.quote) =
        some (compState data ⟨v, none, some "", [], []⟩) ∧
      (v = t.str ↔ ':' ∉ t.chars) := by
  obtain ⟨v, hv, hiff⟩ := exists_quotedValue (k := "- name".toList) (by decide) t
  have hvalue : quotedValue ("- name: ".toList ++ t.quote) = some v := hv
  refine ⟨v, ?_, hiff⟩
  rw [scanContent_of_space (by simp), scanMode, scanComponents, if_pos (by simp), hvalue]
  rfl

theorem scan_componentModel (data : ConfData) (c : ConfComponent) (t : PlainText) :
    ∃ v, scanContent (compState data c) 4 ("model: ".toList ++ t.quote) =
        (if "id:".toList <:+: t.chars then none
          else some (compState data { c with model := some v })) ∧
      (v = t.str ↔ ':' ∉ t.chars) := by
  obtain ⟨v, hv, hiff⟩ := exists_quotedValue (k := "model".toList) (by decide) t
  have hvalue : quotedValue ("model: ".toList ++ t.quote) = some v := hv
  have hint : intValue ("model: ".toList ++ t.quote) = none :=
    intValue_quote (k := "model".toList) (by decide) t
  have hid : "id:".toList <:+: "model: ".toList ++ t.quote ↔ "id:".toList <:+: t.chars := by
    rw [infix_quote_end_iff (by decide) (by decide), or_iff_right (by decide)]
  have hmodel : "model:".toList <:+: "model: ".toList ++ t.quote :=
    ⟨[], ' ' :: t.quote, rfl⟩
  refine ⟨v, ?_, hiff⟩
  rw [scanContent_of_space (by simp), compState, scanMode, scanComponents, if_neg (by simp)]
  by_cases h : "id:".toList <:+: t.chars
  · rw [if_pos ⟨hid.mpr h, rfl⟩, if_pos h, hint]
    rfl
  · rw [if_neg fun hc => h (hid.mp hc.1), if_pos hmodel, if_neg h, hvalue]
    simp [modifyComponent_concat, compState]

theorem scan_componentId (data : ConfData) (c : ConfComponent) (n : ℕ) :
    scanContent (compState data c) 4 ("id: ".toList ++ digits n) =
      some (compState data { c with id := some (n : ℤ) }) := by
  have hvalue : intValue ("id: ".toList ++ digits n) = some (n : ℤ) :=
    intValue_digits (k := "id".toList) (by decide) n
  have hid : "id:".toList <:+: "id: ".toList ++ digits n := ⟨[], ' ' :: digits n, rfl⟩
  rw [scanContent_of_space (by simp), compState, scanMode, scanComponents, if_neg (by simp),
    if_pos ⟨hid, rfl⟩, hvalue]
  simp [modifyComponent_concat, compState]

theorem scan_provides (s : YamlState) (hs : s.mode = some .components) :
    scanContent s 4 "provides:".toList = some s := by
  obtain ⟨mode, data⟩ := s
  obtain rfl := hs
  rfl

theorem scan_requires (s : YamlState) (hs : s.mode = some .components) :
    scanContent s 4 "requires:".toList = some s := by
  obtain ⟨mode, data⟩ := s
  obtain rfl := hs
  rfl

theorem search_cons_of_none {α : Type*} {m : Text → Option α} {x : Char} {s : Text}
    (h : m (x :: s) = none) : search m (x :: s) = search m s := by
  rw [search, h]
  rfl

theorem search_matchName_eq_none {s : Text} (h : ¬"name:".toList <:+: s) :
    search matchName s = none := by
  induction s with
  | nil => rfl
  | cons x s ih =>
    have hbegins : ¬"name:".toList <+: x :: s := fun hp => h hp.isInfix
    have hnone : matchName (x :: s) = none := if_neg hbegins
    rw [search_cons_of_none hnone]
    exact ih fun hs => h (List.infix_cons hs)

theorem search_matchName (t : PlainText) (b : Text) :
    search matchName ("- \x7b name: ".toList ++ (t.quote ++ b)) =
      if t.chars ≠ [] then some t.chars
      else search matchName ("ame: ".toList ++ (t.quote ++ b)) := by
  have hquote : ∀ c ∈ t.chars, decide (c ≠ '"') = true := fun c hc =>
    decide_eq_true (ne_quote_of_mem_chars hc)
  have htake : (t.chars ++ '"' :: b).takeWhile (· ≠ '"') = t.chars := by
    rw [List.takeWhile_append_of_pos hquote]
    simp
  have hdrop : (t.chars ++ '"' :: b).dropWhile (· ≠ '"') = '"' :: b := by
    rw [List.dropWhile_append_of_pos hquote]
    simp
  have hlstrip : lstrip (("name: ".toList ++ (t.quote ++ b)).drop 5) =
      '"' :: (t.chars ++ '"' :: b) := by
    simp only [PlainText.quote, List.cons_append, List.append_assoc]
    rfl
  have hmatch : matchName ("name: ".toList ++ (t.quote ++ b)) =
      if t.chars ≠ [] then some t.chars else none := by
    rw [matchName, if_pos (by simp), hlstrip]
    simp only [htake, hdrop]
    simp
  have hsearch : search matchName ("- \x7b name: ".toList ++ (t.quote ++ b)) =
      (matchName ("name: ".toList ++ (t.quote ++ b)) <|>
        search matchName ("ame: ".toList ++ (t.quote ++ b))) := rfl
  rw [hsearch, hmatch]
  split <;> rfl

/-- A match of an id does not go across a quote. -/
theorem matchId_append (a b : Text) : matchId (a ++ '"' :: b) = matchId a := by
  have hbegins : "id:".toList <+: a ++ '"' :: b ↔ "id:".toList <+: a :=
    ⟨prefix_of_prefix_append (by decide), List.prefix_append_of_prefix⟩
  by_cases h : "id:".toList <+: a
  · have hlength : 3 ≤ a.length := h.length_le
    have hdrop : (a ++ '"' :: b).drop 3 = a.drop 3 ++ '"' :: b :=
      List.drop_append_of_le_length hlength
    have hds : (lstrip (a.drop 3 ++ '"' :: b)).takeWhile Char.isDigit =
        (lstrip (a.drop 3)).takeWhile Char.isDigit := by
      generalize a.drop 3 = a
      induction a with
      | nil => rfl
      | cons c a ih =>
        by_cases hc : isSpace c = true
        · rw [lstrip, lstrip, List.cons_append, List.dropWhile_cons_of_pos hc,
            List.dropWhile_cons_of_pos hc]
          exact ih
        · rw [lstrip, lstrip, List.cons_append, List.dropWhile_cons_of_neg hc,
            List.dropWhile_cons_of_neg hc, ← List.cons_append, takeWhile_append_cons (by decide)]
    rw [matchId, matchId, if_pos (hbegins.mpr h), if_pos h, hdrop, hds]
  · rw [matchId, matchId, if_neg (hbegins.not.mpr h), if_neg h]

theorem search_matchId_append (a b : Text) :
    search matchId (a ++ '"' :: b) = (search matchId a <|> search matchId b) := by
  induction a with
  | nil => rfl
  | cons c a ih =>
    have hmatch := matchId_append (c :: a) b
    rw [List.cons_append, search, search, ih, ← List.cons_append, hmatch]
    cases matchId (c :: a) <;> rfl

theorem search_matchId_digits (n : ℕ) (b : Text) :
    search matchId (", id: ".toList ++ (digits n ++ ',' :: b)) = some n := by
  have hdigits : ∀ c ∈ digits n, c.isDigit = true := fun c hc => isDigit_of_mem_digits hc
  have hhead : ∀ c, (digits n ++ ',' :: b).head? = some c → isSpace c = false := by
    rw [List.head?_append_of_ne_nil _ Nat.toDigits_ne_nil]
    exact (trimmed_digits n).1
  have hlstrip : lstrip (("id: ".toList ++ (digits n ++ ',' :: b)).drop 3) =
      digits n ++ ',' :: b := by
    have hdrop : lstrip (' ' :: (digits n ++ ',' :: b)) = lstrip (digits n ++ ',' :: b) :=
      List.dropWhile_cons_of_pos (by decide)
    exact hdrop.trans (dropWhile_of_head hhead)
  have htake : (digits n ++ ',' :: b).takeWhile Char.isDigit = digits n := by
    rw [takeWhile_append_cons (by decide), List.takeWhile_eq_self_iff.mpr hdigits]
  have hmatch : matchId ("id: ".toList ++ (digits n ++ ',' :: b)) = some n := by
    rw [matchId, if_pos (by simp), hlstrip]
    simp only [htake]
    rw [if_pos Nat.toDigits_ne_nil, Nat.ofDigitChars_ten_toDigits]
  have hsearch : search matchId (", id: ".toList ++ (digits n ++ ',' :: b)) =
      (matchId ("id: ".toList ++ (digits n ++ ',' :: b)) <|>
        search matchId ("d: ".toList ++ (digits n ++ ',' :: b))) := rfl
  rw [hsearch, hmatch]
  rfl

def serviceRest (svc : FileService) : Text :=
  ", id: ".toList ++ (digits svc.id ++
    (", type: \"".toList ++ (svc.type.str.toList ++ "\" \x7d".toList)))

theorem service_content (indent : ℕ) (svc : FileService) :
    (svc.entry indent).2 = "- \x7b name: ".toList ++ (svc.name.quote ++ serviceRest svc) := rfl

theorem notInfix_serviceRest (pat : Text) (hspace : ' ' ∉ pat)
    (hdigit : pat.any Char.isDigit = false) (hnil : pat ≠ []) (hid : ¬pat <:+: ", id:".toList)
    (hembedded : ¬pat <:+: ", type: \"embedded\" \x7d".toList)
    (hremote : ¬pat <:+: ", type: \"remote\" \x7d".toList) (svc : FileService) :
    ¬pat <:+: serviceRest svc := by
  have hdigits : ∀ c ∈ digits svc.id, c ∉ pat := fun c hc hpat => by
    have hany := List.any_eq_true.mpr ⟨c, hpat, isDigit_of_mem_digits hc⟩
    rw [hdigit] at hany
    cases hany
  intro h
  rcases (infix_append_iff (a := ", id:".toList) hspace).mp h with h | h
  · exact hid h
  · have h := (infix_append_of_disjoint hdigits hnil).mp h
    cases htype : svc.type <;> rw [htype] at h
    · exact hembedded h
    · exact hremote h

theorem infix_service_iff {pat : Text} (hquote : '"' ∉ pat) (hspace : ' ' ∉ pat)
    (hdigit : pat.any Char.isDigit = false) (hnil : pat ≠ [])
    (hname : ¬pat <:+: "- \x7b name: ".toList) (hid : ¬pat <:+: ", id:".toList)
    (hembedded : ¬pat <:+: ", type: \"embedded\" \x7d".toList)
    (hremote : ¬pat <:+: ", type: \"remote\" \x7d".toList) (svc : FileService) :
    pat <:+: (svc.entry indent).2 ↔ pat <:+: svc.name.chars := by
  have hrest := notInfix_serviceRest pat hspace hdigit hnil hid hembedded hremote svc
  rw [service_content, infix_quote_iff hquote, or_iff_right hname, or_iff_left hrest]

theorem inlineService_entry (svc : FileService) (type : Option String) :
    inlineService (svc.entry indent).2 type =
      if svc.name.chars ≠ [] then
        some ⟨svc.name.str, ((search matchId svc.name.chars).getD svc.id : ℕ), type⟩
      else none := by
  have hid : search matchId (svc.entry indent).2 =
      some ((search matchId svc.name.chars).getD svc.id) := by
    have hcontent : (svc.entry indent).2 = "- \x7b name: ".toList ++
        '"' :: (svc.name.chars ++ '"' :: serviceRest svc) := by
      rw [service_content, PlainText.quote, List.cons_append, List.append_assoc]
      rfl
    have hrest : search matchId (serviceRest svc) = some svc.id := search_matchId_digits svc.id _
    rw [hcontent, search_matchId_append, search_matchId_append, hrest]
    cases search matchId svc.name.chars <;> rfl
  rw [inlineService, hid, service_content, search_matchName]
  split
  · rfl
  · rename_i hnil
    have hnone :
        search matchName ("ame: ".toList ++ (svc.name.quote ++ serviceRest svc)) = none := by
      refine search_matchName_eq_none ?_
      have hchars : svc.name.chars = [] := not_not.mp hnil
      have hrest := notInfix_serviceRest "name:".toList (by decide) (by decide) (by decide)
        (by decide) (by decide) (by decide) svc
      rw [infix_quote_iff (by decide), or_iff_right (by decide), hchars, or_iff_right (by decide)]
      exact hrest
    rw [hnone]
    rfl

/-- The effect of a line of `provides`. -/
theorem scan_service (data : ConfData) (c : ConfComponent) (svc : FileService) :
    scanContent (compState data c) 6 (svc.entry 6).2 =
      if "model:".toList <:+: svc.name.chars then
        (quotedValue (svc.entry 6).2).map fun model =>
          compState data { c with model := some model }
      else if "provides:".toList <:+: svc.name.chars then some (compState data c)
      else if svc.name.chars ≠ [] then
        some (compState data { c with provides := c.provides ++
          [⟨svc.name.str, ((search matchId svc.name.chars).getD svc.id : ℕ), none⟩] })
      else none := by
  have hmodel : "model:".toList <:+: (svc.entry 6).2 ↔ "model:".toList <:+: svc.name.chars :=
    infix_service_iff (by decide) (by decide) (by decide) (by decide) (by decide) (by decide)
      (by decide) (by decide) svc
  have hprovides : "provides:".toList <:+: (svc.entry 6).2 ↔
      "provides:".toList <:+: svc.name.chars :=
    infix_service_iff (by decide) (by decide) (by decide) (by decide) (by decide) (by decide)
      (by decide) (by decide) svc
  have hspace : ' ' ∈ (svc.entry 6).2 := by simp [FileService.entry]
  have hname : ¬"- name:".toList <+: (svc.entry 6).2 := by simp [FileService.entry]
  have hbrace : "- \x7b name:".toList <+: (svc.entry 6).2 := by simp [FileService.entry]
  rw [scanContent_of_space hspace, compState, scanMode, scanComponents, if_neg hname,
    if_neg (by simp)]
  simp only [hmodel, hprovides]
  split
  · cases quotedValue (svc.entry 6).2 with
    | none => rfl
    | some model => simp [modifyComponent_concat, compState]
  · split
    · rfl
    · rw [if_pos ⟨hbrace, by decide⟩, inlineService_entry]
      split
      · simp [modifyComponent_concat, compState]
      · rfl

/-- The effect of a line of `requires`. -/
theorem scan_require (data : ConfData) (c : ConfComponent) (t : PlainText) :
    ∃ v, scanContent (compState data c) 6 (requireEntry t).2 =
        (if "model:".toList <:+: t.chars then
          (quotedValue (requireEntry t).2).map fun model =>
            compState data { c with model := some model }
        else if "provides:".toList <:+: t.chars then some (compState data c)
        else if "requires:".toList <:+: t.chars then some (compState data c)
        else some (compState data { c with requires := c.requires ++ [v] })) ∧
      (v = t.str ↔ '-' ∉ t.chars) := by
  obtain ⟨v, hv, hiff⟩ := exists_itemValue t
  have hfound (pat : Text) (hquote : '"' ∉ pat) (hnil : pat ≠ []) (hpat : ¬pat <:+: "- ".toList) :
      pat <:+: "- ".toList ++ t.quote ↔ pat <:+: t.chars := by
    rw [infix_quote_end_iff hquote hnil, or_iff_right hpat]
  refine ⟨v, ?_, hiff⟩
  rw [requireEntry, scanContent_of_space (by simp), compState, scanMode, scanComponents,
    if_neg (by simp [PlainText.quote]), if_neg (by simp)]
  simp only [hfound "model:".toList (by decide) (by decide) (by decide),
    hfound "provides:".toList (by decide) (by decide) (by decide),
    hfound "requires:".toList (by decide) (by decide) (by decide)]
  split
  · cases quotedValue ("- ".toList ++ t.quote) with
    | none => rfl
    | some model => simp [modifyComponent_concat, compState]
  · split
    · rfl
    · rw [if_neg (by simp [PlainText.quote])]
      split
      · rfl
      · rw [if_pos ⟨by simp, by decide⟩, hv]
        simp [modifyComponent_concat, compState]

/-- Lines that each append at most one element to a field of a component. If all elements that
should be appended are, then every line is good, and none has been taken for a model. -/
theorem scan_items {α β ρ : Type*} (entry : α → Entry) (kept : ConfComponent → ρ)
    (out : ConfComponent → List β) (want : α → β) (Good : α → Prop)
    (hstep : ∀ c a s', scanContent (compState data c) (entry a).1 (entry a).2 = some s' →
      ∃ c', s' = compState data c' ∧ kept c' = kept c ∧ (out c' = out c ∨
        ∃ b, out c' = out c ++ [b] ∧ c'.model = c.model ∧ (b = want a → Good a)))
    (items : List α) (h : scan (compState data c) (items.map entry) = some s') :
    ∃ c', s' = compState data c' ∧ kept c' = kept c ∧ ∃ bs, out c' = out c ++ bs ∧
      bs.length ≤ items.length ∧
      (bs = items.map want → c'.model = c.model ∧ ∀ a ∈ items, Good a) := by
  induction items generalizing c with
  | nil =>
    obtain rfl := Option.some.inj h
    exact ⟨c, rfl, rfl, [], by simp, le_rfl, fun _ => ⟨rfl, by simp⟩⟩
  | cons a items ih =>
    rw [List.map_cons, scan_cons] at h
    obtain ⟨s₁, hs₁, h⟩ := Option.bind_eq_some_iff.mp h
    obtain ⟨c₁, rfl, hkept₁, hout₁⟩ := hstep c a s₁ hs₁
    obtain ⟨c', rfl, hkept, bs, hout, hlength, hgood⟩ := ih h
    refine ⟨c', rfl, hkept.trans hkept₁, ?_⟩
    rcases hout₁ with hout₁ | ⟨b, hout₁, hmodel₁, hb⟩
    · refine ⟨bs, by rw [hout, hout₁], Nat.le_succ_of_le hlength, fun hbs => ?_⟩
      have hlength' := congrArg List.length hbs
      rw [List.length_map, List.length_cons] at hlength'
      omega
    · refine ⟨b :: bs, by rw [hout, hout₁, List.append_assoc]; rfl, by simpa using hlength, ?_⟩
      intro hbs
      obtain ⟨rfl, htail⟩ := List.cons.inj hbs
      obtain ⟨hmodel, hgood⟩ := hgood htail
      exact ⟨hmodel.trans hmodel₁, List.forall_mem_cons.mpr ⟨hb rfl, hgood⟩⟩

theorem scan_provided (l : List FileService)
    (h : scan (compState data c) (l.map (FileService.entry 6)) = some s') :
    ∃ c', s' = compState data c' ∧ (c'.name, c'.id, c'.requires) = (c.name, c.id, c.requires) ∧
      ∃ svcs, c'.provides.map ConfService.forGenerator =
          c.provides.map ConfService.forGenerator ++ svcs ∧ svcs.length ≤ l.length ∧
        (svcs = l.map (fun svc => svc.data.forGenerator) →
          c'.model = c.model ∧ ∀ svc ∈ l, svc.Readable) := by
  refine scan_items (FileService.entry 6) (fun c => (c.name, c.id, c.requires))
    (fun c => c.provides.map ConfService.forGenerator) _ _ (fun c svc s' hs' => ?_) l h
  have hline : (svc.entry 6).1 = 6 := rfl
  rw [hline, scan_service] at hs'
  split at hs'
  · obtain ⟨model, -, rfl⟩ := Option.map_eq_some_iff.mp hs'
    exact ⟨_, rfl, rfl, .inl rfl⟩
  · rename_i hmodel
    split at hs'
    · obtain rfl := Option.some.inj hs'
      exact ⟨c, rfl, rfl, .inl rfl⟩
    · rename_i hprovides
      split at hs'
      · rename_i hnil
        obtain rfl := Option.some.inj hs'
        refine ⟨_, rfl, rfl, .inr ⟨_, by rw [List.map_append, List.map_singleton], rfl, ?_⟩⟩
        intro he
        refine ⟨hnil, hmodel, hprovides, fun n hn => ?_⟩
        have hid : (((search matchId svc.name.chars).getD svc.id : ℕ) : ℤ) = svc.id :=
          congrArg ConfService.id he
        rw [hn, Option.getD_some] at hid
        exact Int.natCast_inj.mp hid
      · cases hs'

theorem scan_required (l : List PlainText)
    (h : scan (compState data c) (l.map requireEntry) = some s') :
    ∃ c', s' = compState data c' ∧ (c'.name, c'.id, c'.provides) = (c.name, c.id, c.provides) ∧
      ∃ names, c'.requires = c.requires ++ names ∧ names.length ≤ l.length ∧
        (names = l.map PlainText.str → c'.model = c.model ∧ ∀ t ∈ l, t.RequireReadable) := by
  refine scan_items requireEntry (fun c => (c.name, c.id, c.provides)) ConfComponent.requires _ _
    (fun c t s' hs' => ?_) l h
  obtain ⟨v, hv, hiff⟩ := scan_require data c t
  have hline : (requireEntry t).1 = 6 := rfl
  rw [hline, hv] at hs'
  split at hs'
  · obtain ⟨model, -, rfl⟩ := Option.map_eq_some_iff.mp hs'
    exact ⟨_, rfl, rfl, .inl rfl⟩
  · rename_i hmodel
    split at hs'
    · obtain rfl := Option.some.inj hs'
      exact ⟨c, rfl, rfl, .inl rfl⟩
    · rename_i hprovides
      split at hs'
      · obtain rfl := Option.some.inj hs'
        exact ⟨c, rfl, rfl, .inl rfl⟩
      · rename_i hrequires
        obtain rfl := Option.some.inj hs'
        refine ⟨_, rfl, rfl, .inr ⟨v, rfl, rfl, fun he => ?_⟩⟩
        exact ⟨hiff.mp he, hmodel, hprovides, hrequires⟩

theorem scan_key {α : Type*} (l : List α) (header : Entry) (entry : α → Entry)
    (hheader : scanContent (compState data c) header.1 header.2 = some (compState data c)) :
    scan (compState data c) (if l = [] then [] else header :: l.map entry) =
      scan (compState data c) (l.map entry) := by
  cases l with
  | nil => rfl
  | cons a l => rw [if_neg (List.cons_ne_nil a l), scan_cons, hheader, Option.bind_some]

/-- The component that is read from its lines. It is the one of the file only if it is readable. -/
theorem scan_component {comp : FileComponent}
    (h : scan ⟨some .components, data⟩ comp.entries = some s') :
    ∃ c', s' = compState data c' ∧
      (c'.forGenerator = comp.data.forGenerator → comp.Readable) := by
  obtain ⟨name, hname, hnameIff⟩ := scan_componentName data comp.name
  obtain ⟨model, hmodel, hmodelIff⟩ :=
    scan_componentModel data ⟨name, none, some "", [], []⟩ comp.model
  simp only [FileComponent.entries, scan_append, scan_cons, scan_nil, hname, Option.bind_some,
    hmodel] at h
  split at h
  · cases h
  simp only [Option.bind_some, scan_componentId] at h
  obtain ⟨s₁, hs₁, h⟩ := Option.bind_eq_some_iff.mp h
  rw [scan_key _ _ _ (scan_provides _ rfl)] at hs₁
  obtain ⟨c₁, rfl, hkept₁, svcs, hsvcs, -, hgood₁⟩ := scan_provided comp.provides hs₁
  rw [scan_key _ _ _ (scan_requires _ rfl)] at h
  obtain ⟨c', rfl, hkept, names, hnames, -, hgood⟩ := scan_required comp.requires h
  refine ⟨c', rfl, fun he => ?_⟩
  obtain ⟨hname₁, -, hrequires₁⟩ :
      c₁.name = name ∧ c₁.id = some (comp.id : ℤ) ∧ c₁.requires = [] := by
    simpa using hkept₁
  obtain ⟨hname', -, hprovides'⟩ :
      c'.name = c₁.name ∧ c'.id = c₁.id ∧ c'.provides = c₁.provides := by
    simpa using hkept
  have hrequires : c'.requires = comp.requires.map PlainText.str :=
    congrArg ConfComponent.requires he
  have hprovides : c'.provides.map ConfService.forGenerator =
      (comp.provides.map FileService.data).map ConfService.forGenerator :=
    congrArg ConfComponent.provides he
  rw [hnames, hrequires₁, List.nil_append] at hrequires
  rw [hprovides', hsvcs, List.map_map] at hprovides
  obtain ⟨hmodel', hreadable⟩ := hgood hrequires
  obtain ⟨hmodel₁, hreadable₁⟩ := hgood₁ hprovides
  refine ⟨hnameIff.mp ?_, hmodelIff.mp ?_, hreadable₁, hreadable⟩
  · exact (hname'.trans hname₁).symm.trans (congrArg ConfComponent.name he)
  · have hmodelEq : c'.model = some comp.model.str := congrArg ConfComponent.model he
    rw [hmodel', hmodel₁] at hmodelEq
    exact Option.some.inj hmodelEq

theorem scan_service_of_readable {svc : FileService} (h : svc.Readable) (data : ConfData)
    (c : ConfComponent) :
    scanContent (compState data c) 6 (svc.entry 6).2 =
      some (compState data { c with
        provides := c.provides ++ [⟨svc.name.str, svc.id, none⟩] }) := by
  obtain ⟨hnil, hmodel, hprovides, hid⟩ := h
  rw [scan_service, if_neg hmodel, if_neg hprovides, if_pos hnil]
  cases hsearch : search matchId svc.name.chars with
  | none => rfl
  | some n => rw [hid n hsearch, Option.getD_some]

theorem scan_require_of_readable {t : PlainText} (h : t.RequireReadable) (data : ConfData)
    (c : ConfComponent) :
    scanContent (compState data c) 6 (requireEntry t).2 =
      some (compState data { c with requires := c.requires ++ [t.str] }) := by
  obtain ⟨hhyphen, hmodel, hprovides, hrequires⟩ := h
  obtain ⟨v, hv, hiff⟩ := scan_require data c t
  rw [hv, if_neg hmodel, if_neg hprovides, if_neg hrequires, hiff.mpr hhyphen]

theorem scan_provided_of_readable (l : List FileService) (h : ∀ svc ∈ l, svc.Readable)
    (data : ConfData) (c : ConfComponent) :
    scan (compState data c) (l.map (FileService.entry 6)) =
      some (compState data { c with
        provides := c.provides ++ l.map fun svc => ⟨svc.name.str, svc.id, none⟩ }) := by
  induction l generalizing c with
  | nil => simp
  | cons svc l ih =>
    obtain ⟨hsvc, hl⟩ := List.forall_mem_cons.mp h
    have hline : (svc.entry 6).1 = 6 := rfl
    rw [List.map_cons, scan_cons, hline, scan_service_of_readable hsvc, Option.bind_some, ih hl]
    simp

theorem scan_required_of_readable (l : List PlainText) (h : ∀ t ∈ l, t.RequireReadable)
    (data : ConfData) (c : ConfComponent) :
    scan (compState data c) (l.map requireEntry) =
      some (compState data { c with requires := c.requires ++ l.map PlainText.str }) := by
  induction l generalizing c with
  | nil => simp
  | cons t l ih =>
    obtain ⟨ht, hl⟩ := List.forall_mem_cons.mp h
    have hline : (requireEntry t).1 = 6 := rfl
    rw [List.map_cons, scan_cons, hline, scan_require_of_readable ht, Option.bind_some, ih hl]
    simp

theorem scan_component_of_readable {comp : FileComponent} (h : comp.Readable) (data : ConfData) :
    scan ⟨some .components, data⟩ comp.entries = some (compState data comp.scanned) := by
  obtain ⟨hname, hmodel, hprovides, hrequires⟩ := h
  obtain ⟨name, hscanName, hnameIff⟩ := scan_componentName data comp.name
  obtain ⟨model, hscanModel, hmodelIff⟩ :=
    scan_componentModel data ⟨name, none, some "", [], []⟩ comp.model
  have hid : ¬"id:".toList <:+: comp.model.chars := fun hid =>
    hmodel (hid.subset (by decide))
  obtain rfl := hnameIff.mpr hname
  obtain rfl := hmodelIff.mpr hmodel
  rw [if_neg hid] at hscanModel
  simp only [FileComponent.entries, scan_append, scan_cons, scan_nil, hscanName, Option.bind_some,
    hscanModel, scan_componentId]
  rw [scan_key _ _ _ (scan_provides _ rfl), scan_provided_of_readable _ hprovides,
    Option.bind_some, scan_key _ _ _ (scan_requires _ rfl), scan_required_of_readable _ hrequires]
  rfl

theorem scan_components (l : List FileComponent)
    (h : scan ⟨some .components, data⟩ (l.flatMap FileComponent.entries) = some s') :
    ∃ cs, s' = ⟨some .components, { data with components := data.components ++ cs }⟩ ∧
      List.Forall₂ (fun comp c => c.forGenerator = comp.data.forGenerator → comp.Readable)
        l cs := by
  induction l generalizing data with
  | nil =>
    obtain rfl := Option.some.inj h
    exact ⟨[], by simp, .nil⟩
  | cons comp l ih =>
    rw [List.flatMap_cons, scan_append] at h
    obtain ⟨s₁, hs₁, h⟩ := Option.bind_eq_some_iff.mp h
    obtain ⟨c, rfl, hc⟩ := scan_component hs₁
    obtain ⟨cs, rfl, hcs⟩ := ih h
    exact ⟨c :: cs, by simp, .cons hc hcs⟩

theorem scan_components_of_readable (l : List FileComponent) (h : ∀ comp ∈ l, comp.Readable)
    (data : ConfData) :
    scan ⟨some .components, data⟩ (l.flatMap FileComponent.entries) =
      some ⟨some .components,
        { data with components := data.components ++ l.map FileComponent.scanned }⟩ := by
  induction l generalizing data with
  | nil => simp
  | cons comp l ih =>
    obtain ⟨hcomp, hl⟩ := List.forall_mem_cons.mp h
    rw [List.flatMap_cons, scan_append, scan_component_of_readable hcomp, Option.bind_some,
      compState, ih hl]
    simp

theorem scan_model (data : ConfData) (m : FileModel) :
    ∃ m', scan ⟨some .models, data⟩ m.entries =
        some ⟨some .models, { data with models := data.models ++ [m'] }⟩ ∧
      (m' = m.data ↔ m.Readable) := by
  obtain ⟨name, hname, hnameIff⟩ := exists_quotedValue (k := "- name".toList) (by decide) m.name
  obtain ⟨lib, hlib, hlibIff⟩ := exists_quotedValue (k := "lib".toList) (by decide) m.lib
  have hnameValue : quotedValue ("- name: ".toList ++ m.name.quote) = some name := hname
  have hlibValue : quotedValue ("lib: ".toList ++ m.lib.quote) = some lib := hlib
  have hfound : "lib:".toList <:+: "lib: ".toList ++ m.lib.quote := ⟨[], ' ' :: m.lib.quote, rfl⟩
  have hnameLine : scanContent ⟨some .models, data⟩ 2 ("- name: ".toList ++ m.name.quote) =
      some ⟨some .models, { data with models := data.models ++ [⟨name, ""⟩] }⟩ := by
    rw [scanContent_of_space (by simp), scanMode, scanModels, if_pos (by simp), hnameValue]
    rfl
  have hlibLine : scanContent ⟨some .models, { data with models := data.models ++ [⟨name, ""⟩] }⟩ 4
      ("lib: ".toList ++ m.lib.quote) =
        some ⟨some .models, { data with models := data.models ++ [⟨name, lib⟩] }⟩ := by
    rw [scanContent_of_space (by simp), scanMode, scanModels, if_neg (by simp), if_pos hfound,
      hlibValue]
    simp [modifyLast]
  refine ⟨⟨name, lib⟩, ?_, ?_⟩
  · rw [FileModel.entries, scan_cons, hnameLine, Option.bind_some, scan_cons, hlibLine]
    rfl
  · rw [FileModel.data, ConfModel.mk.injEq, hnameIff, hlibIff]
    rfl

theorem scan_models (l : List FileModel) (data : ConfData) :
    ∃ ms, scan ⟨some .models, data⟩ (l.flatMap FileModel.entries) =
        some ⟨some .models, { data with models := data.models ++ ms }⟩ ∧
      List.Forall₂ (fun m m' => m' = m.data ↔ m.Readable) l ms := by
  induction l generalizing data with
  | nil => exact ⟨[], by simp, .nil⟩
  | cons m l ih =>
    obtain ⟨m', hm', hiff⟩ := scan_model data m
    obtain ⟨ms, hms, hall⟩ := ih { data with models := data.models ++ [m'] }
    refine ⟨m' :: ms, ?_, .cons hiff hall⟩
    rw [List.flatMap_cons, scan_append, hm', Option.bind_some, hms]
    simp

end YamlFallback

end GeminiNOS

import GeminiNOS.Cli.LineEditor

/-! # The bounds of the line editor

There is no zero in the line before the position, so that the length of a string that has
been copied into the buffer is where its copy ends. What an edit writes then depends on the
length of what it copies alone.
-/

namespace GeminiNOS

open Foundations

theorem no_nul_of_mem_argSuggestions {names args : List Bytes} {line : Bytes} {space argLen : ℕ}
    (hnames : ∀ name ∈ names, 0 ∉ name) (h : argSuggestions names line space argLen = some args) :
    ∀ arg ∈ args, 0 ∉ arg := by
  have hlevels : ∀ arg ∈ logLevels, 0 ∉ arg := by decide
  have hlog : ∀ arg ∈ logArgs, 0 ∉ arg := by decide
  have hperf : ∀ arg ∈ perfArgs, 0 ∉ arg := by decide
  have hshow : ∀ arg ∈ showArgs, 0 ∉ arg := by decide
  have hclear : ∀ arg ∈ clearArgs, 0 ∉ arg := by decide
  have hfilter : ∀ l : List Bytes, (∀ arg ∈ l, 0 ∉ arg) → ∀ p : Bytes → Bool,
      some (l.filter p) = some args → ∀ arg ∈ args, 0 ∉ arg := by
    rintro l hl p ⟨⟩ arg harg
    exact hl arg (List.mem_of_mem_filter harg)
  have hnil : some ([] : List Bytes) = some args → ∀ arg ∈ args, 0 ∉ arg := by
    rintro ⟨⟩ arg harg
    cases harg
  unfold argSuggestions at h
  dsimp only at h
  split at h
  · split at h
    · cases h
    · split at h
      · exact hfilter _ hlevels _ h
      · split at h
        · exact hfilter _ hlog _ h
        · exact hnil h
  · split at h
    · split at h
      · cases h
      · exact hfilter _ hperf _ h
    · split at h
      · exact hfilter _ hshow _ h
      · split at h
        · exact hfilter _ hclear _ h
        · split at h
          · exact hfilter _ hnames _ h
          · exact hnil h

theorem no_nul_of_completion {names : List Bytes} {line text : Bytes} {pos : ℕ}
    (hnames : ∀ name ∈ names, 0 ∉ name) (h : completion names line pos = some text) :
    0 ∉ text := by
  have hcmds : ∀ cmd ∈ cliCmds, 0 ∉ cmd := by decide
  have hsuggestions : ∀ l k, suggestions names line pos = some (l, k) → ∀ x ∈ l, 0 ∉ x := by
    intro l k hl
    unfold suggestions at hl
    split at hl
    · obtain ⟨args, hargs, heq⟩ := Option.map_eq_some_iff.mp hl
      obtain ⟨rfl, -⟩ := Prod.mk.inj heq
      exact no_nul_of_mem_argSuggestions hnames hargs
    · obtain ⟨rfl, -⟩ := Prod.mk.inj (Option.some.inj hl)
      exact fun x hx => hcmds x (List.mem_of_mem_filter hx)
  unfold completion at h
  split at h
  · rename_i suggestion matchLen hsome
    obtain rfl := Option.some.inj h
    have hmem := hsuggestions _ _ hsome suggestion List.mem_cons_self
    exact fun hzero => hmem (List.mem_of_mem_drop hzero)
  · cases h

namespace LineEditor

variable {ctx : LineContext} {s s' : LineEditor} {addr : ℤ} {bytes text : Bytes}

def WritesInside (ctx : LineContext) (s : LineEditor) : Prop :=
  ∀ w ∈ s.writes, 0 ≤ w.1 ∧ w.2 ≤ ctx.size

theorem writesInside_store : (s.store addr bytes).WritesInside ctx ↔
    s.WritesInside ctx ∧ 0 ≤ addr ∧ addr + bytes.length ≤ ctx.size := by
  simp only [WritesInside, store, List.forall_mem_append, List.forall_mem_singleton]

/-- What holds as long as all writes have been inside the buffer: there is no zero before the
position, and a turn of the loop begins before the last byte. -/
structure Sound (ctx : LineContext) (s : LineEditor) : Prop where
  inBounds : s.InBounds ctx
  noNul : s.buf.NoNul s.pos
  running : s.pc ≠ .returned → 0 ≤ s.pos ∧ s.pos < ctx.size - 1

theorem inBounds_next_iff (hpos : 0 ≤ s.pos) : (s.next ctx).InBounds ctx ↔
    s.WritesInside ctx ∧ s.pos ≤ ctx.size - 1 ∧ (s.pos = ctx.size - 1 → s.buf s.pos = 0) := by
  constructor
  · rintro ⟨hwrites, hbounds, hterminated⟩
    have hle : s.pos ≤ ctx.size - 1 := by
      rcases hbounds with ⟨-, hle⟩ | ⟨-, he⟩
      · exact hle
      · have he' : s.pos = -1 := he
        omega
    refine ⟨hwrites, hle, fun he => hterminated ?_ hpos⟩
    exact if_neg (by omega)
  · rintro ⟨hwrites, hle, hterminated⟩
    refine ⟨hwrites, .inl ⟨hpos, hle⟩, fun hpc _ => hterminated ?_⟩
    by_contra hne
    have hreading : (s.next ctx).pc = .reading := if_pos (by omega)
    rw [hreading] at hpc
    cases hpc

theorem Sound.next (hpos : 0 ≤ s.pos) (hnul : s.buf.NoNul s.pos)
    (h : (s.next ctx).InBounds ctx) : (s.next ctx).Sound ctx where
  inBounds := h
  noNul := hnul
  running := by
    intro hpc
    refine ⟨hpos, ?_⟩
    by_contra hge
    exact hpc (if_neg hge)

/-- An edit at the end of a turn. -/
structure Edits (ctx : LineContext) (s : LineEditor) (fits : Prop) : Prop where
  iff : s.InBounds ctx ↔ fits
  keep : s.InBounds ctx → s.Sound ctx

theorem Edits.next {fits : Prop} (hpos : 0 ≤ s.pos) (hnul : s.buf.NoNul s.pos)
    (hiff : s.WritesInside ctx ∧ s.pos ≤ ctx.size - 1 ∧
      (s.pos = ctx.size - 1 → s.buf s.pos = 0) ↔ fits) : (s.next ctx).Edits ctx fits where
  iff := (inBounds_next_iff hpos).trans hiff
  keep := Sound.next hpos hnul

theorem strcpy_spec (haddr : 0 ≤ addr) (hnul : s.buf.NoNul addr) (htext : 0 ∉ text) :
    (s.strcpy addr text).pos = addr + text.length ∧
      (s.strcpy addr text).buf.NoNul (addr + text.length) ∧
      (s.strcpy addr text).buf (addr + text.length) = 0 := by
  have hkeep : (s.buf.store addr (text ++ [0])).NoNul (addr + text.length) := by
    intro i hi hlt
    rw [CMemory.store_concat_of_lt hlt]
    exact hnul.store htext (Int.le_refl _) i hi hlt
  exact ⟨hkeep.length_str (by omega), hkeep, CMemory.store_concat rfl⟩

theorem Edits.strcpy (haddr : 0 ≤ addr) (hnul : s.buf.NoNul addr) (htext : 0 ∉ text)
    (hwrites : s.WritesInside ctx) (hidx : ℤ) :
    (LineEditor.next ctx { s.strcpy addr text with hIdx := hidx }).Edits ctx
      (addr + text.length ≤ ctx.size - 1) := by
  obtain ⟨hpos, hkeep, hzero⟩ := strcpy_spec haddr hnul htext
  have hinside : (s.strcpy addr text).WritesInside ctx ↔ addr + text.length ≤ ctx.size - 1 := by
    have hstore : (s.strcpy addr text).WritesInside ctx ↔ s.WritesInside ctx ∧ 0 ≤ addr ∧
        addr + (text ++ [0]).length ≤ ctx.size := writesInside_store
    refine hstore.trans ?_
    rw [List.length_append, List.length_singleton]
    constructor
    · rintro ⟨-, -, hle⟩
      omega
    · exact fun hle => ⟨hwrites, haddr, by omega⟩
  refine .next (show 0 ≤ (s.strcpy addr text).pos by omega) (hpos ▸ hkeep) ?_
  constructor
  · rintro ⟨-, hle, -⟩
    exact hpos ▸ hle
  · intro hle
    exact ⟨hinside.mpr hle, hpos.symm ▸ hle, fun _ => hpos.symm ▸ hzero⟩

theorem Edits.returned (hwrites : s.WritesInside ctx) (hnul : s.buf.NoNul s.pos) (hpos : 0 ≤ s.pos)
    (hlt : s.pos < ctx.size - 1) :
    Edits ctx { s with pc := .returned } (s.buf s.pos = 0) where
  iff := ⟨fun h => h.terminated rfl hpos, fun hzero =>
    ⟨hwrites, .inl ⟨hpos, by show s.pos ≤ _; omega⟩, fun _ _ => hzero⟩⟩
  keep h := ⟨h, hnul, fun hne => absurd rfl hne⟩

theorem Edits.setPc (h : s.Sound ctx) (hrun : s.pc ≠ .returned) {pc : LinePc}
    (hpc : pc ≠ .returned) : Edits ctx { s with pc := pc } True where
  iff := iff_of_true ⟨h.inBounds.writes, .inl ⟨(h.running hrun).1, by
    have hlt := (h.running hrun).2
    show s.pos ≤ _
    omega⟩, fun he => absurd he hpc⟩ trivial
  keep hin := ⟨hin, h.noNul, fun _ => h.running hrun⟩

theorem handleTabCompletion_of_some (h : completion ctx.names
    ((s.buf.store s.pos [0]).str s.pos) s.pos.toNat = some text) :
    s.handleTabCompletion ctx = (s.store s.pos [0]).strcpy s.pos text := by
  unfold LineEditor.handleTabCompletion
  dsimp only
  split <;> rename_i hcompletion
  · obtain rfl := Option.some.inj (h.symm.trans hcompletion)
    rfl
  · cases h.symm.trans hcompletion

theorem handleTabCompletion_of_none (h : completion ctx.names
    ((s.buf.store s.pos [0]).str s.pos) s.pos.toNat = none) :
    s.handleTabCompletion ctx = s.store s.pos [0] := by
  unfold LineEditor.handleTabCompletion
  dsimp only
  split <;> rename_i hcompletion
  · cases h.symm.trans hcompletion
  · rfl

theorem Edits.tab (h : s.Sound ctx) (hrun : s.pc ≠ .returned) :
    ((s.handleTabCompletion ctx).next ctx).Edits ctx
      (∀ text, completion ctx.names ((s.buf.store s.pos [0]).str s.pos) s.pos.toNat = some text →
        s.pos + text.length ≤ ctx.size - 1) := by
  obtain ⟨hpos, hlt⟩ := h.running hrun
  have hwrites : (s.store s.pos [0]).WritesInside ctx :=
    writesInside_store.mpr ⟨h.inBounds.writes, hpos, by rw [List.length_singleton]; omega⟩
  have hnul : (s.store s.pos [0]).buf.NoNul s.pos := h.noNul.store_of_le (Int.le_refl _)
  cases hcompletion : completion ctx.names ((s.buf.store s.pos [0]).str s.pos) s.pos.toNat with
  | none =>
    rw [handleTabCompletion_of_none hcompletion]
    refine .next hpos hnul (iff_of_true ⟨hwrites, ?_, fun he => ?_⟩ (by simp))
    · show s.pos ≤ _
      omega
    · have he' : s.pos = ctx.size - 1 := he
      omega
  | some text =>
    rw [handleTabCompletion_of_some hcompletion]
    have htext := no_nul_of_completion ctx.names_no_nul hcompletion
    have hedits := Edits.strcpy hpos hnul htext hwrites s.hIdx
    refine ⟨hedits.iff.trans ?_, hedits.keep⟩
    simp

theorem Edits.char (h : s.Sound ctx) (hrun : s.pc ≠ .returned) {c : UInt8} (hc : c ≠ 0) :
    (LineEditor.next ctx { s.store s.pos [c] with pos := s.pos + 1 }).Edits ctx
      (s.pos + 1 = ctx.size - 1 → s.buf (ctx.size - 1) = 0) := by
  obtain ⟨hpos, hlt⟩ := h.running hrun
  have hwrites : (s.store s.pos [c]).WritesInside ctx :=
    writesInside_store.mpr ⟨h.inBounds.writes, hpos, by rw [List.length_singleton]; omega⟩
  have hnul : (s.store s.pos [c]).buf.NoNul (s.pos + 1) :=
    h.noNul.store (by simpa using hc.symm) (by rw [List.length_singleton]; exact Int.le_refl _)
  have hbehind : (s.store s.pos [c]).buf (s.pos + 1) = s.buf (s.pos + 1) :=
    CMemory.store_of_le (by rw [List.length_singleton]; exact Int.le_refl _)
  refine .next (show 0 ≤ s.pos + 1 by omega) hnul ?_
  constructor
  · rintro ⟨-, -, hzero⟩ he
    have hzero' : (s.store s.pos [c]).buf (s.pos + 1) = 0 := hzero he
    rw [← he, ← hbehind, hzero']
  · intro hzero
    refine ⟨hwrites, show s.pos + 1 ≤ _ by omega, fun he => ?_⟩
    have he' : s.pos + 1 = ctx.size - 1 := he
    show (s.store s.pos [c]).buf (s.pos + 1) = 0
    rw [hbehind, he', hzero he']

theorem Edits.keep_buf (h : s.Sound ctx) (hrun : s.pc ≠ .returned) {pos : ℤ} (hpos : 0 ≤ pos)
    (hle : pos ≤ s.pos) : (LineEditor.next ctx { s with pos := pos }).Edits ctx True := by
  have hlt := (h.running hrun).2
  refine .next hpos (h.noNul.mono hle) (iff_of_true ⟨h.inBounds.writes, ?_, fun he => ?_⟩ trivial)
  · show pos ≤ _
    omega
  · have he' : pos = ctx.size - 1 := he
    omega

theorem Edits.key (h : s.Sound ctx) (hreading : s.pc = .reading) (c : KeyByte) :
    (s.key ctx c).Edits ctx (s.Fits ctx (some c)) := by
  have hrun : s.pc ≠ .returned := by
    rw [hreading]
    rintro ⟨⟩
  obtain ⟨hpos, hlt⟩ := h.running hrun
  unfold LineEditor.key Fits
  rw [hreading]
  dsimp only
  cases hkey : lineKey c.1 <;> dsimp only
  case newline =>
    have hwrites : (s.store s.pos [0]).WritesInside ctx :=
      writesInside_store.mpr ⟨h.inBounds.writes, hpos, by rw [List.length_singleton]; omega⟩
    have hzero : (s.store s.pos [0]).buf s.pos = 0 :=
      @CMemory.store_concat s.buf s.pos s.pos [] 0 (by simp)
    have hedits := Edits.returned hwrites (h.noNul.store_of_le (Int.le_refl _)) hpos hlt
    exact ⟨hedits.iff.trans (iff_true_intro hzero), hedits.keep⟩
  case escape =>
    refine .setPc h hrun ?_
    rintro ⟨⟩
  case erase =>
    split
    · exact .keep_buf h hrun (by omega) (by omega)
    · exact .keep_buf h hrun hpos (Int.le_refl _)
  case tab => exact .tab h hrun
  case char => exact .char h hrun c.2

theorem no_nul_of_recalled {entry : Bytes} (h : s.recalled ctx = some entry) : 0 ∉ entry := by
  unfold recalled at h
  split at h
  · obtain rfl := Option.some.inj h
    rw [List.getD_eq_getElem?_getD]
    cases hget : ctx.history.entries[(s.hIdx + 1).toNat]? with
    | none => exact List.not_mem_nil
    | some entry => exact ctx.history.no_nul entry (List.mem_of_getElem? hget)
  · cases h

theorem Edits.recallHistory (h : s.Sound ctx) (hrun : s.pc ≠ .returned) :
    ((s.recallHistory ctx).next ctx).Edits ctx
      (∀ entry, s.recalled ctx = some entry → (entry.length : ℤ) ≤ ctx.size - 1) := by
  unfold LineEditor.recallHistory
  cases hrecalled : s.recalled ctx with
  | none =>
    have hedits := Edits.keep_buf h hrun (h.running hrun).1 (Int.le_refl _)
    exact ⟨hedits.iff.trans (by simp), hedits.keep⟩
  | some entry =>
    have hedits := Edits.strcpy (Int.le_refl 0) (h.noNul.mono (h.running hrun).1)
      (no_nul_of_recalled hrecalled) h.inBounds.writes (s.hIdx + 1)
    exact ⟨hedits.iff.trans (by simp), hedits.keep⟩

theorem Edits.step {input : Option KeyByte} (h : s.Sound ctx) (hs : s.step ctx input = some s') :
    s'.Edits ctx (s.Fits ctx input) := by
  have hrun : s.pc ≠ .returned := by
    intro hpc
    simp only [LineEditor.step, hpc] at hs
    cases hs
  obtain ⟨hpos, hlt⟩ := h.running hrun
  cases hpc : s.pc <;> cases input <;> simp only [LineEditor.step, hpc] at hs <;>
    first | exact absurd hpc hrun | obtain rfl := Option.some.inj hs
  case reading.none =>
    unfold Fits
    rw [hpc]
    dsimp only
    refine ⟨iff_of_true ⟨h.inBounds.writes, .inr ⟨rfl, rfl⟩, fun _ hge => ?_⟩ trivial,
      fun hin => ?_⟩
    · exact absurd (show (0 : ℤ) ≤ -1 from hge) (by decide)
    · refine ⟨hin, fun i hi hlt => ?_, fun hne => absurd rfl hne⟩
      have hlt' : i < -1 := hlt
      omega
  case reading.some c => exact .key h hpc c
  case escape.none =>
    unfold Fits
    rw [hpc]
    dsimp only
    exact .returned h.inBounds.writes h.noNul hpos hlt
  case escape.some c =>
    unfold Fits
    rw [hpc]
    dsimp only
    refine .setPc h hrun ?_
    rintro ⟨⟩
  case sequence.none c =>
    unfold Fits
    rw [hpc]
    dsimp only
    exact .returned h.inBounds.writes h.noNul hpos hlt
  case sequence.some c c' =>
    unfold Fits
    rw [hpc]
    dsimp only
    split
    · rename_i harrow
      have hedits := Edits.recallHistory h hrun
      exact ⟨hedits.iff.trans ⟨fun hfits _ => hfits, fun hfits => hfits harrow⟩, hedits.keep⟩
    · rename_i harrow
      have hedits := Edits.keep_buf h hrun hpos (Int.le_refl _)
      exact ⟨hedits.iff.trans (iff_of_true trivial fun hand => absurd hand harrow), hedits.keep⟩

theorem sound_start (ctx : LineContext) (buf : CMemory) : (start ctx buf).Sound ctx := by
  have hsize := ctx.one_lt_size
  refine .next (Int.le_refl 0) (fun i hi hlt => absurd hlt (Int.not_lt.mpr hi)) ?_
  refine (inBounds_next_iff (Int.le_refl 0)).mpr ⟨fun w hw => absurd hw List.not_mem_nil, ?_, ?_⟩
  · show (0 : ℤ) ≤ _
    omega
  · intro he
    have he' : (0 : ℤ) = ctx.size - 1 := he
    omega

/-- The editor keeps its bounds in a run if and only if every byte of the run meets the
condition. -/
theorem always_inBounds_iff (ctx : LineContext) (buf : CMemory) (inputs : List (Option KeyByte)) :
    Run.Always (step ctx) (InBounds ctx) (start ctx buf) inputs ↔
      Run.Guarded (step ctx) (Fits ctx) (start ctx buf) inputs :=
  Run.always_iff_guarded (fun _ h => h.inBounds) (fun _ _ _ h hs hin => (Edits.step h hs).keep hin)
    (fun _ _ _ h hs => (Edits.step h hs).iff) (sound_start ctx buf)

def longLine : Bytes := ascii "show " ++ List.replicate 245 120 ++ ascii " com"

/-- The editor of the command line, with the long line in its history. -/
def longContext : LineContext where
  size := 256
  one_lt_size := by decide
  history := ⟨[longLine], by decide, by decide +kernel, by decide +kernel⟩
  names := []
  names_no_nul := fun name hname => absurd hname List.not_mem_nil

def upArrowThen (c : KeyByte) : List (Option KeyByte) :=
  [some ⟨27, by decide⟩, some ⟨91, by decide⟩, some ⟨65, by decide⟩, some c]

/-- A character after the line fills the buffer, and nothing writes the zero behind it. A tab after
the line completes it past the end of the buffer. -/
theorem not_inBounds_longLine :
    ¬ Run.Always (step longContext) (InBounds longContext) (start longContext fun _ => 1)
      (upArrowThen ⟨120, by decide⟩) ∧
    ¬ Run.Always (step longContext) (InBounds longContext) (start longContext fun _ => 1)
      (upArrowThen ⟨9, by decide⟩) := by
  constructor
  · intro h
    obtain ⟨s, hin, hread⟩ := h.exists_last (fun s => (s.pc, s.pos, s.buf 255)) (.returned, 255, 1)
      (by decide +kernel)
    obtain ⟨hpc, hrest⟩ := Prod.mk.inj hread
    obtain ⟨hpos, hbuf⟩ := Prod.mk.inj hrest
    have hzero := hin.terminated hpc (by omega)
    rw [hpos, hbuf] at hzero
    exact absurd hzero (by decide)
  · intro h
    obtain ⟨s, hin, hread⟩ := h.exists_last (fun s : LineEditor => decide ((254, 262) ∈ s.writes))
      true (by decide +kernel)
    have hwrite := (hin.writes (254, 262) (of_decide_eq_true hread)).2
    exact absurd hwrite (by decide)

end LineEditor

end GeminiNOS

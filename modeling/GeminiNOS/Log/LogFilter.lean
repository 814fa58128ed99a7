import GeminiNOS.Log.LogBuffer

/-! # Filter levels over a run

What passes the filter is decided by the calls on the log up to then: a registered
component has the level that was set for it since its last registration, and until then
the global level that was in force at that registration. Everything else has the
global level. Whatever is printed passed the filter when it was logged.
-/

namespace GeminiNOS

open Foundations

variable {P : Type*}

def LogAction.globalLevel : LogAction P → Option NosLogLevel
  | .setFilterLevel level => some level
  | _ => none

def LogAction.Configures (compId : ℕ) : LogAction P → Prop
  | .setCompLevel compId' _ | .setCompInfo compId' _ => compId' = compId
  | _ => False

def globalAfter (actions : List (LogAction P)) : NosLogLevel :=
  (actions.reverse.findSome? LogAction.globalLevel).getD .debug

/-- The level of a registered component after a list of calls. -/
inductive OwnLevel (compId : ℕ) (actions : List (LogAction P)) : NosLogLevel → Prop where
  | registered {pre post : List (LogAction P)} {name : String} :
      actions = pre ++ .setCompInfo compId name :: post →
      (∀ a ∈ post, ¬ a.Configures compId) → OwnLevel compId actions (globalAfter pre)
  | set {pre post : List (LogAction P)} {name : String} {level : NosLogLevel} :
      .setCompInfo compId name ∈ pre → actions = pre ++ .setCompLevel compId level :: post →
      (∀ a ∈ post, ¬ a.Configures compId) → OwnLevel compId actions level

/-- The level of a component after a list of calls. -/
inductive LevelAfter (compId : ℕ) (actions : List (LogAction P)) : NosLogLevel → Prop where
  | system : (0 < compId → compId < maxCompId → ∀ name, .setCompInfo compId name ∉ actions) →
      LevelAfter compId actions (globalAfter actions)
  | own {level : NosLogLevel} : 0 < compId → compId < maxCompId →
      OwnLevel compId actions level → LevelAfter compId actions level

/-- The line was logged at a level not below that of its component. -/
def Passed (actions : List (LogAction P)) (line : LogLine) : Prop :=
  ∃ pre p post level, actions = pre ++ .log p line :: post ∧
    LevelAfter line.compId pre level ∧ level.val ≤ line.level.val

variable {actions : List (LogAction P)} {a : LogAction P} {compId : ℕ} {level : NosLogLevel}
  {line : LogLine} {name : String}

theorem globalAfter_concat :
    globalAfter (actions ++ [a]) = a.globalLevel.getD (globalAfter actions) := by
  rw [globalAfter, List.reverse_append, List.reverse_singleton, List.singleton_append,
    List.findSome?_cons]
  cases a.globalLevel <;> rfl

theorem OwnLevel.concat (h : OwnLevel compId actions level) (ha : ¬ a.Configures compId) :
    OwnLevel compId (actions ++ [a]) level := by
  have hpost : ∀ post : List (LogAction P), (∀ b ∈ post, ¬ b.Configures compId) →
      ∀ b ∈ post ++ [a], ¬ b.Configures compId := by
    intro post hpost b hb
    rcases List.mem_append.mp hb with hb | hb
    · exact hpost b hb
    · rwa [List.mem_singleton.mp hb]
  cases h with
  | registered he hnone =>
    rw [he, List.append_assoc, List.cons_append]
    exact .registered rfl (hpost _ hnone)
  | set hmem he hnone =>
    rw [he, List.append_assoc, List.cons_append]
    exact .set hmem rfl (hpost _ hnone)

theorem ownLevel_concat_setCompInfo :
    OwnLevel compId (actions ++ [.setCompInfo compId name]) (globalAfter actions) :=
  .registered rfl (by simp)

theorem ownLevel_concat_setCompLevel (hmem : .setCompInfo compId name ∈ actions) :
    OwnLevel compId (actions ++ [.setCompLevel compId level]) level :=
  .set hmem rfl (by simp)

theorem Passed.concat (h : Passed actions line) (a : LogAction P) :
    Passed (actions ++ [a]) line := by
  obtain ⟨pre, p, post, level, rfl, hlevel⟩ := h
  refine ⟨pre, p, post ++ [a], level, ?_, hlevel⟩
  rw [List.append_assoc, List.cons_append]

namespace NosLogContext

/-- The slot holds a line that passed, as far as it fits. -/
def HoldsPassed (s : NosLogContext P) (actions : List (LogAction P)) (idx : ℕ) : Prop :=
  ∃ line, Passed actions line ∧ (s.ring idx).line = line.cut

def CarriesPassed (s : NosLogContext P) (actions : List (LogAction P)) : LogPc → Prop
  | .fetchAdd line | .cas _ _ line | .write _ _ line => Passed actions line
  | .store idx _ => s.HoldsPassed actions idx
  | .idle | .drop => True

def PrintsPassed (actions : List (LogAction P)) (out : ℕ × PrintedLine) : Prop :=
  ∃ line, Passed actions line ∧ out.2.level = levelToStr line.level ∧
    out.2.timeStr = line.timeStr ∧ out.2.message = line.cut.message

/-- The table of the components holds what the calls made of it. -/
structure Configured (s : NosLogContext P) (actions : List (LogAction P)) : Prop where
  globalLevel : s.globalFilterLevel = globalAfter actions
  unregistered : ∀ compId, 0 < compId → compId < maxCompId →
    (s.compInfo compId).isRegistered = false → ∀ name, .setCompInfo compId name ∉ actions
  registered : ∀ compId, 0 < compId → compId < maxCompId →
    (s.compInfo compId).isRegistered = true → (∃ name, .setCompInfo compId name ∈ actions) ∧
      OwnLevel compId actions (s.compInfo compId).filterLevel

/-- Only what passed is in the log. -/
structure Filtered (s : NosLogContext P) (actions : List (LogAction P)) : Prop where
  carries : ∀ p, s.CarriesPassed actions (s.producer p)
  ready : ∀ idx, (s.ring idx).ready = .ready → s.HoldsPassed actions idx
  print : s.consumer = .print → s.HoldsPassed actions (s.readIdx % logBufferSize)
  printed : ∀ out ∈ s.printed, PrintsPassed actions out

variable {s s' : NosLogContext P} {idx : ℕ} {pc : LogPc}

theorem Configured.levelAfter (h : s.Configured actions) (compId : ℕ) :
    LevelAfter compId actions (s.filterLevel compId) := by
  rw [filterLevel]
  split
  · rename_i hreg
    exact .own hreg.1 hreg.2.1 (h.registered compId hreg.1 hreg.2.1 hreg.2.2).2
  · rename_i hreg
    rw [h.globalLevel]
    refine .system fun hpos hlt => h.unregistered compId hpos hlt ?_
    by_contra hne
    exact hreg ⟨hpos, hlt, by simpa using hne⟩

theorem configured_init : (init : NosLogContext P).Configured [] where
  globalLevel := rfl
  unregistered _ _ _ _ _ := List.not_mem_nil
  registered _ _ _ h := by cases h

theorem filtered_init : (init : NosLogContext P).Filtered [] where
  carries _ := trivial
  ready idx hready := by cases hready
  print hprint := by cases hprint
  printed out hout := by cases hout

theorem Configured.keep (h : s.Configured actions) (hglobal : a.globalLevel = none)
    (hnot : ∀ compId, 0 < compId → compId < maxCompId → ¬ a.Configures compId)
    (hlevel : s'.globalFilterLevel = s.globalFilterLevel) (hinfo : s'.compInfo = s.compInfo) :
    s'.Configured (actions ++ [a]) where
  globalLevel := by rw [hlevel, h.globalLevel, globalAfter_concat, hglobal, Option.getD_none]
  unregistered compId hpos hlt hreg name := by
    rw [hinfo] at hreg
    rw [List.mem_append, List.mem_singleton, not_or]
    refine ⟨h.unregistered compId hpos hlt hreg name, ?_⟩
    rintro rfl
    exact hnot compId hpos hlt rfl
  registered compId hpos hlt hreg := by
    rw [hinfo] at hreg ⊢
    obtain ⟨⟨name, hmem⟩, hown⟩ := h.registered compId hpos hlt hreg
    exact ⟨⟨name, List.mem_append_left _ hmem⟩, hown.concat (hnot compId hpos hlt)⟩

theorem Configured.configure (h : s.Configured actions) {info : NosCompInfo}
    (hglobal : a.globalLevel = none) (hother : ∀ compId', compId' ≠ compId →
      ¬ a.Configures compId')
    (hunregistered : info.isRegistered = false → ∀ name, .setCompInfo compId name ∉ actions ++ [a])
    (hregistered : info.isRegistered = true → (∃ name, .setCompInfo compId name ∈ actions ++ [a]) ∧
      OwnLevel compId (actions ++ [a]) info.filterLevel) :
    (s.setCompInfo compId info).Configured (actions ++ [a]) where
  globalLevel := by
    rw [globalAfter_concat, hglobal, Option.getD_none]
    exact h.globalLevel
  unregistered compId' hpos hlt hreg := by
    by_cases he : compId' = compId
    · subst he
      simp only [setCompInfo, Function.update_self] at hreg
      exact hunregistered hreg
    · simp only [setCompInfo, Function.update_of_ne he] at hreg
      intro name
      rw [List.mem_append, List.mem_singleton, not_or]
      refine ⟨h.unregistered compId' hpos hlt hreg name, ?_⟩
      rintro rfl
      exact hother compId' he rfl
  registered compId' hpos hlt hreg := by
    by_cases he : compId' = compId
    · subst he
      simp only [setCompInfo, Function.update_self] at hreg ⊢
      exact hregistered hreg
    · simp only [setCompInfo, Function.update_of_ne he] at hreg ⊢
      obtain ⟨⟨name, hmem⟩, hown⟩ := h.registered compId' hpos hlt hreg
      exact ⟨⟨name, List.mem_append_left _ hmem⟩, hown.concat (hother compId' he)⟩

theorem Configured.setFilterLevel (h : s.Configured actions) (level : NosLogLevel) :
    Configured { s with globalFilterLevel := level }
      (actions ++ [(.setFilterLevel level : LogAction P)]) where
  globalLevel := by rw [globalAfter_concat]; rfl
  unregistered compId hpos hlt hreg name := by
    rw [List.mem_append, List.mem_singleton, not_or]
    exact ⟨h.unregistered compId hpos hlt hreg name, by rintro ⟨⟩⟩
  registered compId hpos hlt hreg := by
    obtain ⟨⟨name, hmem⟩, hown⟩ := h.registered compId hpos hlt hreg
    exact ⟨⟨name, List.mem_append_left _ hmem⟩, hown.concat fun hc => hc⟩

theorem Configured.setCompLevel (h : s.Configured actions) (hpos : 0 < compId)
    (hlt : compId < maxCompId) (level : NosLogLevel) :
    (s.setCompInfo compId { s.compInfo compId with filterLevel := level }).Configured
      (actions ++ [.setCompLevel compId level]) := by
  apply h.configure
  · rfl
  · exact fun compId' hne he => hne (Eq.symm he)
  · intro hreg name
    rw [List.mem_append, List.mem_singleton, not_or]
    exact ⟨h.unregistered compId hpos hlt hreg name, by rintro ⟨⟩⟩
  · intro hreg
    obtain ⟨⟨name, hmem⟩, -⟩ := h.registered compId hpos hlt hreg
    exact ⟨⟨name, List.mem_append_left _ hmem⟩, ownLevel_concat_setCompLevel hmem⟩

theorem Configured.setCompInfo (h : s.Configured actions) (name : String) {short : String} :
    (s.setCompInfo compId ⟨short, s.globalFilterLevel, true⟩).Configured
      (actions ++ [.setCompInfo compId name]) := by
  apply h.configure
  · rfl
  · exact fun compId' hne he => hne (Eq.symm he)
  · rintro ⟨⟩
  · intro _
    rw [h.globalLevel]
    exact ⟨⟨name, List.mem_append_right _ List.mem_cons_self⟩, ownLevel_concat_setCompInfo⟩

theorem HoldsPassed.concat (h : s.HoldsPassed actions idx) (a : LogAction P) :
    s.HoldsPassed (actions ++ [a]) idx := by
  obtain ⟨line, hline, he⟩ := h
  exact ⟨line, hline.concat a, he⟩

theorem CarriesPassed.concat (h : s.CarriesPassed actions pc) (a : LogAction P) :
    s.CarriesPassed (actions ++ [a]) pc := by
  cases pc with
  | idle => trivial
  | drop => trivial
  | fetchAdd line => exact Passed.concat h a
  | cas idx ticket line => exact Passed.concat h a
  | write idx ticket line => exact Passed.concat h a
  | store idx ticket => exact HoldsPassed.concat h a

theorem Filtered.concat (h : s.Filtered actions) (a : LogAction P) :
    s.Filtered (actions ++ [a]) where
  carries p := (h.carries p).concat a
  ready idx hready := (h.ready idx hready).concat a
  print hprint := (h.print hprint).concat a
  printed out hout := by
    obtain ⟨line, hline, hprints⟩ := h.printed out hout
    exact ⟨line, hline.concat a, hprints⟩

/-- A slot keeps its line, or gets one that passed. -/
theorem HoldsPassed.setSlot {entry : NosLogEntry} {idx' : ℕ} (h : s.HoldsPassed actions idx')
    (hentry : entry.line = (s.ring idx).line ∨
      ∃ line, Passed actions line ∧ entry.line = line.cut) :
    (s.setSlot idx entry).HoldsPassed actions idx' := by
  by_cases he : idx' = idx
  · subst he
    simp only [HoldsPassed, NosLogContext.setSlot, Function.update_self]
    rcases hentry with hsame | hpassed
    · rw [hsame]
      exact h
    · exact hpassed
  · simp only [HoldsPassed, NosLogContext.setSlot, Function.update_of_ne he]
    exact h

theorem Filtered.setSlot (h : s.Filtered actions) {entry : NosLogEntry}
    (hentry : entry.line = (s.ring idx).line ∨
      ∃ line, Passed actions line ∧ entry.line = line.cut)
    (hready : entry.ready = .ready → s.HoldsPassed actions idx) :
    (s.setSlot idx entry).Filtered actions where
  carries p := by
    have hp := h.carries p
    change CarriesPassed _ _ (s.producer p)
    cases hpc : s.producer p with
    | idle => trivial
    | drop => trivial
    | store idx' ticket =>
      rw [hpc] at hp
      exact HoldsPassed.setSlot hp hentry
    | fetchAdd line | cas idx' ticket line | write idx' ticket line =>
      rw [hpc] at hp
      exact hp
  ready idx' hready' := by
    apply HoldsPassed.setSlot _ hentry
    by_cases he : idx' = idx
    · subst he
      simp only [NosLogContext.setSlot, Function.update_self] at hready'
      exact hready hready'
    · simp only [NosLogContext.setSlot, Function.update_of_ne he] at hready'
      exact h.ready idx' hready'
  print hprint := (h.print hprint).setSlot hentry
  printed := h.printed

theorem consume_settings (hs : s.consume = some s') :
    s'.globalFilterLevel = s.globalFilterLevel ∧ s'.compInfo = s.compInfo := by
  unfold NosLogContext.consume at hs
  split at hs <;> cases hs <;> exact ⟨rfl, rfl⟩

theorem Filtered.consume (h : s.Filtered actions) (hs : s.consume = some s') :
    s'.Filtered actions := by
  unfold NosLogContext.consume at hs
  split at hs
  · cases hs
    refine ⟨h.carries, h.ready, ?_, h.printed⟩
    dsimp only
    split <;> rintro ⟨⟩
  · cases hs
    refine ⟨h.carries, h.ready, ?_, h.printed⟩
    dsimp only
    split <;> rintro ⟨⟩
  · cases hs
    refine ⟨h.carries, h.ready, ?_, h.printed⟩
    dsimp only
    split
    · rename_i hready
      exact fun _ => h.ready _ hready
    · rintro ⟨⟩
  · rename_i hconsumer
    cases hs
    refine ⟨h.carries, h.ready, by rintro ⟨⟩, fun out hout => ?_⟩
    rcases List.mem_append.mp hout with hout | hout
    · exact h.printed out hout
    · obtain ⟨line, hline, he⟩ := h.print hconsumer
      obtain rfl := List.mem_singleton.mp hout
      refine ⟨line, hline, ?_⟩
      simp only [printLine, readSlot, he, LogLine.cut, and_self]
  · cases hs
    have hslot : (s.setSlot (s.readIdx % logBufferSize)
        { s.readSlot with ready := .empty }).Filtered actions :=
      h.setSlot (.inl rfl) (by rintro ⟨⟩)
    exact ⟨hslot.carries, hslot.ready, by rintro ⟨⟩, hslot.printed⟩
  · cases hs

section

variable [DecidableEq P]

theorem Filtered.setProducer (h : s.Filtered actions) (p : P) (hpc : s.CarriesPassed actions pc) :
    (s.setProducer p pc).Filtered actions where
  carries q := by
    change s.CarriesPassed actions (Function.update s.producer p pc q)
    by_cases he : q = p
    · rwa [he, Function.update_self]
    · rw [Function.update_of_ne he]
      exact h.carries q
  ready := h.ready
  print := h.print
  printed := h.printed

theorem produce_settings {p : P} (hs : s.produce p = some s') :
    s'.globalFilterLevel = s.globalFilterLevel ∧ s'.compInfo = s.compInfo := by
  unfold NosLogContext.produce at hs
  split at hs
  · cases hs
  · cases hs
    exact ⟨rfl, rfl⟩
  · split at hs <;> cases hs <;> exact ⟨rfl, rfl⟩
  all_goals
    cases hs
    exact ⟨rfl, rfl⟩

theorem Filtered.produce (h : s.Filtered actions) {p : P} (hs : s.produce p = some s') :
    s'.Filtered actions := by
  have hp := h.carries p
  unfold NosLogContext.produce at hs
  split at hs
  · cases hs
  · rename_i line hpc
    rw [hpc] at hp
    cases hs
    apply Filtered.setProducer
    · exact ⟨h.carries, h.ready, h.print, h.printed⟩
    · exact hp
  · rename_i idx ticket line hpc
    rw [hpc] at hp
    split at hs
    · cases hs
      apply Filtered.setProducer
      · exact h.setSlot (.inl rfl) (by rintro ⟨⟩)
      · exact hp
    · cases hs
      apply h.setProducer
      trivial
  · cases hs
    apply Filtered.setProducer
    · exact ⟨h.carries, h.ready, h.print, h.printed⟩
    · trivial
  · rename_i idx ticket line hpc
    rw [hpc] at hp
    cases hs
    apply Filtered.setProducer
    · exact h.setSlot (.inr ⟨line, hp, rfl⟩) (h.ready idx)
    · refine ⟨line, hp, ?_⟩
      simp [NosLogContext.setSlot]
  · rename_i idx ticket hpc
    rw [hpc] at hp
    cases hs
    apply Filtered.setProducer
    · exact h.setSlot (.inl rfl) fun _ => hp
    · trivial

theorem Configured.step (h : s.Configured actions) (hs : s.step a = some s') :
    s'.Configured (actions ++ [a]) := by
  cases a with
  | log p line =>
    simp only [NosLogContext.step, Option.ite_none_left_eq_some] at hs
    obtain ⟨-, hs⟩ := hs
    split at hs <;> cases hs <;> exact h.keep rfl (fun _ _ _ hc => hc) rfl rfl
  | produce p =>
    obtain ⟨hlevel, hinfo⟩ := produce_settings hs
    exact h.keep rfl (fun _ _ _ hc => hc) hlevel hinfo
  | consume =>
    obtain ⟨hlevel, hinfo⟩ := consume_settings hs
    exact h.keep rfl (fun _ _ _ hc => hc) hlevel hinfo
  | setFilterLevel level =>
    cases hs
    exact h.setFilterLevel level
  | setCompLevel compId level =>
    simp only [NosLogContext.step] at hs
    split at hs
    · cases hs
      refine h.keep rfl (fun compId' hpos hlt hc => ?_) rfl rfl
      obtain rfl : compId = compId' := hc
      omega
    · rename_i hrange
      cases hs
      exact h.setCompLevel (by omega) (by omega) level
  | setCompInfo compId name =>
    simp only [NosLogContext.step] at hs
    split at hs
    · cases hs
      refine h.keep rfl (fun compId' hpos hlt hc => ?_) rfl rfl
      obtain rfl : compId = compId' := hc
      omega
    · cases hs
      exact h.setCompInfo name
  | deinit =>
    cases hs
    exact h.keep rfl (fun _ _ _ hc => hc) rfl rfl

theorem Filtered.step (h : s.Filtered actions) (hc : s.Configured actions)
    (hs : s.step a = some s') : s'.Filtered (actions ++ [a]) := by
  cases a with
  | log p line =>
    simp only [NosLogContext.step, Option.ite_none_left_eq_some] at hs
    obtain ⟨-, hs⟩ := hs
    split at hs
    · cases hs
      exact h.concat _
    · rename_i hlevel
      cases hs
      apply (h.concat _).setProducer
      exact ⟨actions, p, [], _, rfl, hc.levelAfter line.compId, not_lt.mp hlevel⟩
  | produce p => exact (h.produce hs).concat _
  | consume => exact (h.consume hs).concat _
  | setFilterLevel level =>
    cases hs
    have h' := h.concat (.setFilterLevel level)
    exact ⟨h'.carries, h'.ready, h'.print, h'.printed⟩
  | setCompLevel compId level =>
    have h' := h.concat (.setCompLevel compId level)
    simp only [NosLogContext.step] at hs
    split at hs <;> cases hs <;> exact ⟨h'.carries, h'.ready, h'.print, h'.printed⟩
  | setCompInfo compId name =>
    have h' := h.concat (.setCompInfo compId name)
    simp only [NosLogContext.step] at hs
    split at hs <;> cases hs <;> exact ⟨h'.carries, h'.ready, h'.print, h'.printed⟩
  | deinit =>
    cases hs
    have h' := h.concat .deinit
    exact ⟨h'.carries, h'.ready, h'.print, h'.printed⟩

/-- After any run, the level of a component is the one that the calls up to then give it, and
whatever was printed had passed the level of its component when it was logged. -/
theorem filters_history (h : Run.exec step (init : NosLogContext P) actions = some s) :
    (∀ compId, LevelAfter compId actions (s.filterLevel compId)) ∧
      ∀ out ∈ s.printed, PrintsPassed actions out := by
  have hboth := Run.exec_history (H := fun actions s => s.Configured actions ∧ s.Filtered actions)
    (fun _ _ _ _ ⟨hc, hf⟩ hs => ⟨hc.step hs, hf.step hc hs⟩) ⟨configured_init, filtered_init⟩ h
  exact ⟨hboth.1.levelAfter, hboth.2.printed⟩

/-- A component keeps the level it was registered at when the global level is raised. -/
theorem filters_history_raise :
    ∃ s, Run.exec step (init : NosLogContext Unit)
      [.setCompInfo 7 "comp", .setFilterLevel .error, .log () ⟨.info, 7, "12:00:00", "up"⟩,
        .produce (), .produce (), .produce (), .produce (), .consume, .consume, .consume] =
      some s ∧ LevelAfter 7 [.setCompInfo 7 "comp", .setFilterLevel .error,
        .log () ⟨.info, 7, "12:00:00", "up"⟩, .produce (), .produce (), .produce (), .produce (),
        .consume, .consume, .consume] (s.filterLevel 7) ∧
      s.filterLevel 7 = .debug ∧ s.filterLevel 8 = .error ∧ s.printed.length = 1 :=
  ⟨_, rfl, (filters_history rfl).1 7, by decide, by decide, by decide⟩

end

end NosLogContext

end GeminiNOS

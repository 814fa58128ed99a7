import GeminiNOS.Component.TablesInvariant

/-! # The end of components

An instance ends when it is unloaded, by a command of its own or by the one that reloads it,
or when the node shuts down: it is stopped, freed and its library closed. Over a whole run
each instance ends once. The only exceptions are instances that startup could not enter into a
full table, of which neither the commands nor the shutdown know.
-/

namespace GeminiNOS

open Foundations

/-- The tables of a node with the instances that have ended, in this order. -/
structure NodeLife where
  tables : NodeTables
  ended : List ℕ

namespace NodeLife

/-- After `node_init_workers` and `node_setup_routing`. -/
def startup (nodeDef : NosNodeDef) (loads : ℕ → ℕ → Option CompExport) : NodeLife :=
  ⟨NodeTables.startup nodeDef loads, []⟩

/-- One command. Each of them begins with `node_unload_component`, if it finds its component. -/
def step (s : NodeLife) (cmd : NodeCommand) : Option NodeLife :=
  (s.tables.step cmd).map fun tables =>
    ⟨tables, s.ended ++ ((s.tables.findEntry cmd.name).map fun entry => entry.2.comp).toList⟩

/-- The loop of `main` over the loaded components, from the last one to the first. -/
def cleanup (s : NodeLife) : List ℕ :=
  s.tables.loaded.reverse.foldl (fun ended info => ended ++ [info.comp]) s.ended

def known (s : NodeLife) : List ℕ := s.ended ++ s.tables.loaded.map LoadedCompInfo.comp

/-- The instance was entered into the table of loaded components, which had room for the first ones
of the startup and has it for all later ones. -/
def WasEntered (s : NodeLife) (atStartup x : ℕ) : Prop :=
  x < s.tables.compCount ∧ (x < maxComponentsPerNode ∨ atStartup ≤ x)

/-- The instances that have ended or are loaded are those that were entered, each of them once. -/
structure Accounted (s : NodeLife) (atStartup : ℕ) : Prop where
  sound : s.tables.Sound
  atStartup_le : atStartup ≤ s.tables.compCount
  nodup : s.known.Nodup
  mem_iff : ∀ x, x ∈ s.known ↔ s.WasEntered atStartup x

variable {s s' : NodeLife} {cmd : NodeCommand} {atStartup x : ℕ} {tables : NodeTables}
  {info : LoadedCompInfo}

theorem cleanup_perm (s : NodeLife) : s.cleanup.Perm s.known := by
  have hfold : ∀ (l : List LoadedCompInfo) (ended : List ℕ),
      l.foldl (fun ended info => ended ++ [info.comp]) ended =
        ended ++ l.map LoadedCompInfo.comp := by
    intro l
    induction l with
    | nil => simp
    | cons info l ih =>
      intro ended
      rw [List.foldl_cons, ih, List.map_cons, List.append_assoc, List.singleton_append]
  rw [cleanup, hfold, known, List.map_reverse]
  exact (List.reverse_perm _).append_left s.ended

theorem accounted_startup (nodeDef : NosNodeDef) (loads : ℕ → ℕ → Option CompExport) :
    (startup nodeDef loads).Accounted (NodeTables.startup nodeDef loads).compCount := by
  have henters := CompNode.enters_nodeInitWorkers nodeDef loads
  have hsound := NodeTables.sound_startup nodeDef loads
  have hknown : (startup nodeDef loads).known =
      List.range (min maxComponentsPerNode (NodeTables.startup nodeDef loads).compCount) := by
    have hloaded : (NodeTables.startup nodeDef loads).loaded =
        ((CompNode.entered nodeDef loads).zipIdx.map CompNode.recordOf).take
          maxComponentsPerNode := henters.loaded
    have hcount : (NodeTables.startup nodeDef loads).compCount =
        (CompNode.entered nodeDef loads).length := henters.compCount
    rw [known, startup, List.nil_append, hloaded, hcount, List.map_take, List.map_map,
      ← List.take_range]
    congr 1
    rw [List.range_eq_range', ← List.zipIdx_map_snd]
    rfl
  refine ⟨hsound, le_rfl, ?_, fun x => ?_⟩
  · rw [hknown]
    exact List.nodup_range
  · rw [hknown, List.mem_range]
    simp only [WasEntered, startup]
    omega

theorem Accounted.unload (h : s.Accounted atStartup) (hinfo : info ∈ s.tables.loaded)
    (hu : s.tables.Unloaded tables info) :
    Accounted ⟨tables, s.ended ++ [info.comp]⟩ atStartup := by
  have hmap : tables.loaded.map LoadedCompInfo.comp =
      (s.tables.loaded.map LoadedCompInfo.comp).filter (· ≠ info.comp) := by
    rw [hu.loaded, List.filter_map]
    rfl
  have hmem : info.comp ∈ s.tables.loaded.map LoadedCompInfo.comp := List.mem_map_of_mem hinfo
  have hperm : (known ⟨tables, s.ended ++ [info.comp]⟩).Perm s.known := by
    rw [known, known, hmap, List.append_assoc, List.singleton_append,
      ← erase_eq_filter_ne h.sound.loaded_nodup]
    exact (List.perm_cons_erase hmem).symm.append_left s.ended
  constructor
  · exact hu.sound h.sound
  · rw [hu.compCount]
    exact h.atStartup_le
  · exact hperm.nodup_iff.mpr h.nodup
  · intro x
    rw [hperm.mem_iff, h.mem_iff, WasEntered, WasEntered, hu.compCount]

theorem Accounted.enter (h : s.Accounted atStartup) {data : ReloadData}
    (hroom : s.tables.loaded.length < maxComponentsPerNode) (he : s.tables.Entered tables data) :
    Accounted ⟨tables, s.ended⟩ atStartup := by
  have hknown : known ⟨tables, s.ended⟩ = s.known ++ [s.tables.compCount] := by
    rw [known, known, he.loaded, List.map_append, List.map_singleton, List.append_assoc]
  have hatStartup := h.atStartup_le
  constructor
  · exact he.sound h.sound hroom
  · dsimp only
    rw [he.compCount]
    omega
  · rw [hknown, List.nodup_append]
    refine ⟨h.nodup, List.nodup_singleton _, fun x hx y hy => ?_⟩
    rw [List.mem_singleton.mp hy]
    exact Nat.ne_of_lt ((h.mem_iff x).mp hx).1
  · intro x
    rw [hknown, List.mem_append, List.mem_singleton, h.mem_iff]
    simp only [WasEntered, he.compCount]
    omega

theorem step_of_findEntry {idx : ℕ} (h : s.tables.Sound)
    (htables : s.tables.step cmd = some tables)
    (hentry : s.tables.findEntry cmd.name = some (idx, info)) :
    ∃ s₁, s.tables.Unloaded s₁ info ∧ (tables = s₁ ∨
      s₁.loaded.length < maxComponentsPerNode ∧ ∃ data, s₁.Entered tables data) := by
  obtain ⟨hinfo, -⟩ := NodeTables.findEntry_eq_some hentry
  refine ⟨_, h.unloadEntry hinfo, ?_⟩
  have hcmd : tables = (s.tables.nodeUnloadComponent cmd.name).2 ∨
      ∃ loads, tables = (s.tables.nodeReloadComponent cmd.name loads).2 := by
    cases cmd with
    | load name o => exact .inr ⟨_, (Option.some.inj htables).symm⟩
    | reload name o => exact .inr ⟨_, (Option.some.inj htables).symm⟩
    | unload name => exact .inl (Option.some.inj htables).symm
  simp only [NodeTables.nodeUnloadComponent, NodeTables.nodeReloadComponent, hentry] at hcmd
  rcases hcmd with rfl | ⟨loads, rfl⟩
  · exact .inl rfl
  · cases loads with
    | none => exact .inl rfl
    | some e =>
      rcases NodeTables.enterInstance_cases _ _ e with ⟨hroom, henter⟩ | ⟨-, hfull⟩
      · exact .inr ⟨hroom, _, henter⟩
      · exact .inl hfull

theorem Accounted.step (h : s.Accounted atStartup) (hs : s.step cmd = some s') :
    s'.Accounted atStartup := by
  obtain ⟨tables, htables, rfl⟩ := Option.map_eq_some_iff.mp hs
  cases hentry : s.tables.findEntry cmd.name with
  | none =>
    have hsame : tables = s.tables := by
      rcases NodeTables.step_cases h.sound htables with he | ⟨idx, info, s₁, hfind, -⟩
      · exact he
      · rw [hentry] at hfind
        cases hfind
    rw [hsame, Option.map_none, Option.toList_none, List.append_nil]
    exact h
  | some entry =>
    obtain ⟨idx, info⟩ := entry
    obtain ⟨s₁, hu, hcases⟩ := step_of_findEntry h.sound htables hentry
    have hinfo := List.mem_of_getElem? (NodeTables.findEntry_eq_some hentry).1
    have hended := h.unload hinfo hu
    rw [Option.map_some, Option.toList_some]
    rcases hcases with rfl | ⟨hroom, data, henter⟩
    · exact hended
    · exact hended.enter hroom henter

/-- Whenever the node shuts down after its startup and any commands, every instance that was ever
entered into the table of loaded components has ended, and none of them twice. -/
theorem cleanup_ends_each_once (nodeDef : NosNodeDef) (loads : ℕ → ℕ → Option CompExport)
    (cmds : List NodeCommand) :
    Run.Always step (fun s => s.cleanup.Nodup ∧ ∀ x, x ∈ s.cleanup ↔
      s.WasEntered (NodeTables.startup nodeDef loads).compCount x)
    (startup nodeDef loads) cmds := by
  apply Run.always_of_invariant (I := fun s : NodeLife =>
    s.Accounted (NodeTables.startup nodeDef loads).compCount)
  · exact fun s cmd s' h hs => h.step hs
  · intro s h
    have hperm := s.cleanup_perm
    exact ⟨hperm.nodup_iff.mpr h.nodup, fun x => hperm.mem_iff.trans (h.mem_iff x)⟩
  · exact accounted_startup nodeDef loads

end NodeLife

end GeminiNOS

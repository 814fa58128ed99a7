import GeminiNOS.Component.UnloadComplete

/-! # Loading after unloading

The command that loads a component looks for it among the loaded ones, as the reload does. An
unload has taken away the record that it would have to find, and no command adds a record
for a name that has none.
-/

namespace GeminiNOS

open Foundations

/-- A node with one thread and two components, of which the second provides service 7. -/
def pingPongNode : NosNodeDef where
  name := "NodeB"
  threads := [[⟨4, "ping", "libcomp-ping.so"⟩, ⟨5, "pong", "libcomp-pong.so"⟩]]
  services := [⟨7, "NodeB", 5, none⟩]

def LoadOutcome.ok : LoadOutcome := ⟨true, true, true, .ok, true, .ok, ⟨true, true⟩⟩

namespace NodeTables

variable {s s' s₁ s₂ : NodeTables} {info : LoadedCompInfo} {name : String} {idx : ℕ}

def named (s : NodeTables) (name : String) : List LoadedCompInfo :=
  s.loaded.filter fun info => (s.comps info.comp).name = name

/-- A component is back in the table of loaded components, in its thread and at its services, as a
new instance. -/
structure Restored (s s' : NodeTables) (name : String) (info info' : LoadedCompInfo) : Prop where
  mem : info' ∈ s'.named name
  definition : info'.definition s'.comps = info.definition s.comps
  loaded : ((s'.named name).map (LoadedCompInfo.definition s'.comps)).Perm
    ((s.named name).map (LoadedCompInfo.definition s.comps))
  thread : info.comp ∈ s.components info.ownerThread →
    info'.comp ∈ s'.components info'.ownerThread
  bindings : ∀ id, BoundTo s.registry id info.comp info.ownerThread →
    BoundTo s'.registry id info'.comp info'.ownerThread

theorem Unloaded.named_eq (hu : s.Unloaded s₁ info) (name : String) :
    s₁.named name = (s.named name).filter fun i => i.comp ≠ info.comp := by
  rw [named, hu.loaded, hu.comps, named, List.filter_comm]

theorem Unloaded.named_eq_of_ne (hu : s.Unloaded s₁ info)
    (hne : (s.comps info.comp).name ≠ name) : s₁.named name = s.named name := by
  rw [hu.named_eq, List.filter_eq_self]
  intro i hi
  refine decide_eq_true fun heq => hne ?_
  rw [← heq]
  exact of_decide_eq_true (List.mem_filter.mp hi).2

theorem Unloaded.length_named_lt (hu : s.Unloaded s₁ info) (hinfo : info ∈ s.loaded)
    (hname : (s.comps info.comp).name = name) : (s₁.named name).length < (s.named name).length := by
  rw [hu.named_eq, List.length_filter_lt_length_iff_exists]
  exact ⟨info, List.mem_filter.mpr ⟨hinfo, decide_eq_true hname⟩, by simp⟩

theorem Entered.named_eq {data : ReloadData} (he : s.Entered s' data) (h : s.Sound)
    (name : String) : s'.named name = s.named name ++
      if data.name = name then [⟨s.compCount, data.libName, data.thread⟩] else [] := by
  have hold : s.loaded.filter (fun i => (s'.comps i.comp).name = name) = s.named name := by
    refine List.filter_congr fun i hi => ?_
    rw [he.comps _ (h.loaded_lt i hi)]
  rw [named, he.loaded, List.filter_append, hold]
  refine congrArg (s.named name ++ ·) ?_
  split <;> rename_i hname
  · exact List.filter_cons_of_pos (decide_eq_true (he.instance_name.trans hname))
  · exact List.filter_cons_of_neg (by simpa using he.instance_name ▸ hname)

theorem length_named_step_of_ne (h : s.Sound) {cmd : NodeCommand} (hs : s.step cmd = some s')
    (hne : cmd.name ≠ name) : (s'.named name).length = (s.named name).length := by
  rcases step_cases h hs with rfl | ⟨_, info, s₁, -, -, hname, hu, rfl | ⟨-, he⟩⟩
  · rfl
  · rw [hu.named_eq_of_ne (hname ▸ hne)]
  · have hdata : ¬ (s.loadData cmd.name info).name = name := hne
    rw [he.named_eq (hu.sound h), if_neg hdata, List.append_nil, hu.named_eq_of_ne (hname ▸ hne)]

theorem length_named_step_le (h : s.Sound) {cmd : NodeCommand} (hs : s.step cmd = some s') :
    (s'.named cmd.name).length ≤ (s.named cmd.name).length := by
  rcases step_cases h hs with rfl | ⟨_, info, s₁, -, hinfo, hname, hu, rfl | ⟨-, he⟩⟩
  · exact Nat.le_refl _
  · exact Nat.le_of_lt (hu.length_named_lt hinfo hname)
  · have hlt := hu.length_named_lt hinfo hname
    have hdata : (s.loadData cmd.name info).name = cmd.name := rfl
    rw [he.named_eq (hu.sound h), if_pos hdata, List.length_append, List.length_singleton]
    exact hlt

theorem length_named_exec (h : s.Sound) {cmds : List NodeCommand}
    (hne : ∀ cmd ∈ cmds, cmd.name ≠ name) (hs : Run.exec step s cmds = some s') :
    s'.Sound ∧ (s'.named name).length = (s.named name).length := by
  refine (Run.always_of_guarded (G := fun _ cmd => cmd.name ≠ name)
    (I := fun s' => s'.Sound ∧ (s'.named name).length = (s.named name).length) ?_
    (fun _ hI => hI) ⟨h, rfl⟩ (Run.guarded_of_forall hne)).last hs
  rintro s₁ cmd s₂ ⟨hsound, hlength⟩ hother hstep
  exact ⟨hsound.step hstep, (length_named_step_of_ne hsound hstep hother).trans hlength⟩

/-- Whatever commands on other components come between, a load does not bring a component back that
has been unloaded. -/
theorem not_restored {nodeDef : NosNodeDef} {loads : ℕ → ℕ → Option CompExport}
    (h : Run.Reachable step (startup nodeDef loads) s)
    (hentry : s.findEntry name = some (idx, info)) {cmds : List NodeCommand}
    (hne : ∀ cmd ∈ cmds, cmd.name ≠ name)
    (hs : Run.exec step (s.doUnload name) cmds = some s₂) (o : LoadOutcome) :
    ¬ ∃ info', s.Restored (s₂.doLoad name o) name info info' := by
  rintro ⟨info', hrestored⟩
  have hsound := sound_of_reachable h
  obtain ⟨hget, hname⟩ := findEntry_eq_some hentry
  have hunload : s.doUnload name = s.unloadEntry idx info := by
    simp only [doUnload, nodeUnloadComponent, hentry]
  have hu := hsound.unloadEntry hget
  have hless := hu.length_named_lt (List.mem_of_getElem? hget) hname
  rw [hunload] at hs
  obtain ⟨hsound₂, hbetween⟩ := length_named_exec (hu.sound hsound) hne hs
  have hload : ((s₂.doLoad name o).named name).length ≤ (s₂.named name).length :=
    @length_named_step_le _ _ hsound₂ (.load name o) rfl
  have hback := hrestored.loaded.length_eq
  rw [List.length_map, List.length_map] at hback
  omega

/-- The other component is reloaded in between. -/
theorem not_restored_pingPongNode :
    let s := startup pingPongNode fun _ _ => some ⟨true, true⟩
    ¬ ∃ info', s.Restored (((s.doUnload "pong").doReload "ping" .ok).doLoad "pong" .ok) "pong"
      ⟨1, "libcomp-pong.so", 0⟩ info' := by
  have hne : ∀ cmd ∈ [NodeCommand.reload "ping" .ok], cmd.name ≠ "pong" := by
    intro cmd hcmd
    obtain rfl := List.mem_singleton.mp hcmd
    decide
  exact @not_restored _ _ ⟨1, "libcomp-pong.so", 0⟩ "pong" 1 pingPongNode
    (fun _ _ => some ⟨true, true⟩) (.refl _) rfl _ hne rfl .ok

/-- The component is unloaded, and then a load that meets with no obstacle leaves the table of
loaded components empty. -/
theorem not_restored_pongNode :
    let s := startup CompNode.pongNode fun _ _ => some ⟨true, true⟩
    s.findEntry "pong" = some (0, ⟨0, "libcomp-pong.so", 0⟩) ∧
      ((s.doUnload "pong").doLoad "pong" .ok).loaded = [] ∧
      ¬ ∃ info', s.Restored ((s.doUnload "pong").doLoad "pong" .ok) "pong"
        ⟨0, "libcomp-pong.so", 0⟩ info' := by
  refine ⟨rfl, rfl, ?_⟩
  rintro ⟨info', hrestored⟩
  cases hrestored.mem

end NodeTables

end GeminiNOS

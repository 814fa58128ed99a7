import GeminiNOS.Component.StartOrder
import Mathlib.Data.List.Enum

/-! # What a node enters at startup

The components whose load succeeds are numbered in the order of their loading. The table
of loaded components has the first of them, as many as fit, and each thread has those of
its own, as far as they fit.
-/

namespace GeminiNOS

open Foundations

theorem take_concat {α : Type*} (l : List α) (a : α) (n : ℕ) :
    (l ++ [a]).take n = if (l.take n).length < n then l.take n ++ [a] else l.take n := by
  rcases Nat.lt_or_ge l.length n with hlt | hge
  · rw [List.take_of_length_le (Nat.le_of_lt hlt), if_pos hlt, List.take_of_length_le]
    rw [List.length_append, List.length_singleton]
    exact hlt
  · rw [List.take_append_of_le_length hge, List.length_take_of_le hge, if_neg (Nat.lt_irrefl n)]

def LoadedCompInfo.definition (comps : ℕ → NosComponent) (info : LoadedCompInfo) : CompDef × ℕ :=
  (⟨(comps info.comp).id, (comps info.comp).name, info.libName⟩, info.ownerThread)

namespace CompNode

/-- The components of a thread whose load succeeds, among those that are gone through. -/
def enteredThread (t : ℕ) (comps : List (CompDef × ℕ)) (loads : ℕ → Option CompExport) :
    List (CompDef × ℕ) :=
  (comps.filter fun c => (loads c.2).isSome).map fun c => (c.1, t)

/-- The components that `node_init_workers` goes through and whose load succeeds, with their
threads. -/
def entered (nodeDef : NosNodeDef) (loads : ℕ → ℕ → Option CompExport) : List (CompDef × ℕ) :=
  (nodeDef.threads.take maxWorkers).zipIdx.flatMap fun td =>
    enteredThread td.2 ((td.1.takeWhile (·.id ≠ 0)).take maxComponentsPerNode).zipIdx (loads td.2)

theorem length_enteredThread_le (t : ℕ) (comps : List (CompDef × ℕ))
    (loads : ℕ → Option CompExport) : (enteredThread t comps loads).length ≤ comps.length := by
  rw [enteredThread, List.length_map]
  exact List.length_filter_le ..

theorem thread_of_mem_enteredThread {comps : List (CompDef × ℕ)} {loads : ℕ → Option CompExport}
    {d : CompDef × ℕ} (h : d ∈ enteredThread t comps loads) : d.2 = t := by
  obtain ⟨c, -, rfl⟩ := List.mem_map.mp h
  rfl

theorem length_filter_flatMap_le {α β : Type*} {l : List α} {k bound : ℕ}
    {f : α × ℕ → List (β × ℕ)} (htag : ∀ a, ∀ d ∈ f a, d.2 = a.2)
    (hbound : ∀ a ∈ l.zipIdx k, (f a).length ≤ bound) (t : ℕ) :
    (((l.zipIdx k).flatMap f).filter fun d => d.2 = t).length ≤ bound := by
  have hother : ∀ a : α × ℕ, a.2 ≠ t → (f a).filter (fun d => d.2 = t) = [] := by
    intro a ha
    refine List.filter_eq_nil_iff.mpr fun d hd => ?_
    rw [htag a d hd, decide_eq_true_eq]
    exact ha
  induction l generalizing k with
  | nil => exact Nat.zero_le _
  | cons a l ih =>
    rw [List.zipIdx_cons] at hbound ⊢
    rw [List.flatMap_cons, List.filter_append]
    by_cases ht : k = t
    · -- All later indices are greater.
      have hrest : ((l.zipIdx (k + 1)).flatMap f).filter (fun d => d.2 = t) = [] := by
        refine List.filter_eq_nil_iff.mpr fun d hd => ?_
        obtain ⟨b, hb, hd⟩ := List.mem_flatMap.mp hd
        have hle := List.le_snd_of_mem_zipIdx hb
        rw [htag b d hd, decide_eq_true_eq]
        omega
      rw [hrest, List.append_nil]
      exact le_trans (List.length_filter_le ..) (hbound _ List.mem_cons_self)
    · rw [hother (a, k) ht, List.nil_append]
      exact ih fun b hb => hbound b (List.mem_cons_of_mem _ hb)

def recordOf (d : (CompDef × ℕ) × ℕ) : LoadedCompInfo := ⟨d.2, d.1.1.libName, d.1.2⟩

/-- The components that have been entered. Their instances have the numbers from zero on. -/
structure Enters (s : CompNode) (defs : List (CompDef × ℕ)) : Prop where
  compCount : s.compCount = defs.length
  comps : ∀ x d, defs[x]? = some d → (s.comps x).id = d.1.id ∧ (s.comps x).name = d.1.name
  loaded : s.loaded = (defs.zipIdx.map recordOf).take maxComponentsPerNode
  threads : ∀ t, (s.threads t).components =
    ((defs.zipIdx.filter fun d => d.1.2 = t).map Prod.snd).take maxCompPerThread

variable {s : CompNode} {defs : List (CompDef × ℕ)} {t x : ℕ}

theorem Enters.zero (nodeDef : NosNodeDef) : Enters (zero nodeDef) [] where
  compCount := rfl
  comps := fun x d h => by cases h
  loaded := rfl
  threads := fun t => rfl

theorem loaded_registerComponent (s : CompNode) (t x : ℕ) :
    (s.nosSchedulerRegisterComponent t x).loaded = s.loaded := by
  unfold nosSchedulerRegisterComponent
  dsimp only
  split <;> rfl

theorem idName_registerComponent (s : CompNode) (t x y : ℕ) :
    ((s.nosSchedulerRegisterComponent t x).comps y).id = (s.comps y).id ∧
      ((s.nosSchedulerRegisterComponent t x).comps y).name = (s.comps y).name := by
  unfold nosSchedulerRegisterComponent
  dsimp only
  split
  · exact ⟨rfl, rfl⟩
  · simp only [setComp, setThread, Function.update_apply]
    split
    · rename_i heq
      rw [heq]
      exact ⟨rfl, rfl⟩
    · exact ⟨rfl, rfl⟩

theorem components_registerComponent (s : CompNode) (t x u : ℕ) :
    ((s.nosSchedulerRegisterComponent t x).threads u).components =
      if u = t ∧ (s.threads t).components.length < maxCompPerThread then
        (s.threads u).components ++ [x]
      else (s.threads u).components := by
  unfold nosSchedulerRegisterComponent
  dsimp only
  split <;> rename_i hfull
  · rw [if_neg fun h => Nat.not_lt.mpr hfull h.2]
  · simp only [setComp, setThread, Function.update_apply]
    split <;> rename_i hu
    · rw [if_pos ⟨hu, Nat.not_le.mp hfull⟩, hu]
    · rw [if_neg fun h => hu h.1]

theorem Enters.newComponent (h : s.Enters defs) (t : ℕ) (c : CompDef) (e : CompExport) :
    ∀ x d, (defs ++ [(c, t)])[x]? = some d →
      ((s.newComponent c.id c.name e).comps x).id = d.1.id ∧
        ((s.newComponent c.id c.name e).comps x).name = d.1.name := by
  intro x d hd
  simp only [CompNode.newComponent, Function.update_apply, h.compCount]
  split <;> rename_i hx
  · rw [hx, List.getElem?_concat_length] at hd
    obtain rfl := Option.some.inj hd
    exact ⟨rfl, rfl⟩
  · have hlt := (List.getElem?_eq_some_iff.mp hd).1
    rw [List.length_append, List.length_singleton] at hlt
    rw [List.getElem?_append_left (by omega)] at hd
    exact h.comps x d hd

theorem Enters.initComponent (h : s.Enters defs) (t : ℕ) (c : CompDef) (e : CompExport) :
    (s.initComponent t c (some e)).Enters (defs ++ [(c, t)]) := by
  have hzip : (defs ++ [(c, t)]).zipIdx = defs.zipIdx ++ [((c, t), s.compCount)] := by
    rw [List.zipIdx_append, List.zipIdx_singleton, Nat.zero_add, h.compCount]
  obtain ⟨s', hs', hcount, hcomps, hthreads, hloaded⟩ : ∃ s' : CompNode,
      s.initComponent t c (some e) = s'.nosSchedulerRegisterComponent t s.compCount ∧
      s'.compCount = s.compCount + 1 ∧ s'.comps = (s.newComponent c.id c.name e).comps ∧
      s'.threads = s.threads ∧ s'.loaded =
        if s.loaded.length < maxComponentsPerNode then
          s.loaded ++ [⟨s.compCount, c.libName, t⟩] else s.loaded := by
    refine ⟨_, rfl, ?_⟩
    split <;> rename_i hroom
    · exact ⟨rfl, rfl, rfl, (if_pos hroom).symm⟩
    · exact ⟨rfl, rfl, rfl, (if_neg hroom).symm⟩
  rw [hs']
  constructor
  · rw [compCount_registerComponent, hcount, h.compCount, List.length_append,
      List.length_singleton]
  · intro x d hd
    obtain ⟨hid, hname⟩ := idName_registerComponent s' t s.compCount x
    rw [hid, hname, hcomps]
    exact h.newComponent t c e x d hd
  · rw [loaded_registerComponent, hloaded, hzip, List.map_append, List.map_singleton, take_concat,
      ← h.loaded]
    rfl
  · intro u
    rw [components_registerComponent, hthreads, hzip, List.filter_append]
    by_cases hu : u = t
    · rw [List.filter_cons_of_pos (by simpa using hu.symm), List.filter_nil, List.map_append,
        List.map_singleton, take_concat, ← h.threads u, hu]
      simp
    · rw [if_neg fun hand => hu hand.1,
        List.filter_cons_of_neg (by simpa using fun he => hu he.symm), List.filter_nil,
        List.append_nil, h.threads u]

theorem Enters.initComponents (h : s.Enters defs) (t : ℕ) (comps : List (CompDef × ℕ))
    (loads : ℕ → Option CompExport) :
    (comps.foldl (fun s c => s.initComponent t c.1 (loads c.2)) s).Enters
      (defs ++ enteredThread t comps loads) := by
  induction comps generalizing s defs with
  | nil =>
    rw [enteredThread, List.filter_nil, List.map_nil, List.append_nil]
    exact h
  | cons c comps ih =>
    rw [List.foldl_cons]
    cases hload : loads c.2 with
    | none =>
      have hskip : enteredThread t (c :: comps) loads = enteredThread t comps loads := by
        rw [enteredThread, List.filter_cons_of_neg (by simp [hload])]
        rfl
      rw [hskip]
      exact ih h
    | some e =>
      have henter : enteredThread t (c :: comps) loads =
          (c.1, t) :: enteredThread t comps loads := by
        rw [enteredThread, List.filter_cons_of_pos (by simp [hload]), List.map_cons]
        rfl
      rw [henter, ← List.singleton_append, ← List.append_assoc]
      exact ih (h.initComponent t c.1 e)

theorem Enters.initThreads (h : s.Enters defs) (threads : List (List CompDef × ℕ))
    (loads : ℕ → ℕ → Option CompExport) :
    (threads.foldl (fun s td => s.initThread td.2 td.1 (loads td.2)) s).Enters
      (defs ++ threads.flatMap fun td =>
        enteredThread td.2 ((td.1.takeWhile (·.id ≠ 0)).take maxComponentsPerNode).zipIdx
          (loads td.2)) := by
  induction threads generalizing s defs with
  | nil =>
    rw [List.flatMap_nil, List.append_nil]
    exact h
  | cons td threads ih =>
    rw [List.foldl_cons, List.flatMap_cons, ← List.append_assoc]
    have hthread := h.initComponents td.2
      ((td.1.takeWhile (·.id ≠ 0)).take maxComponentsPerNode).zipIdx (loads td.2)
    exact ih { hthread with }

/-- After `node_init_workers` the node has the components that it went through and whose load
succeeded. -/
theorem enters_nodeInitWorkers (nodeDef : NosNodeDef) (loads : ℕ → ℕ → Option CompExport) :
    ((zero nodeDef).nodeInitWorkers loads).Enters (entered nodeDef loads) :=
  (Enters.zero nodeDef).initThreads _ loads

def threadDefs (s : CompNode) (t : ℕ) : List (ℕ × String) :=
  (s.threads t).components.map fun x => ((s.comps x).id, (s.comps x).name)

theorem Enters.loadedDefs (h : s.Enters defs) :
    s.loaded.map (LoadedCompInfo.definition s.comps) = defs.take maxComponentsPerNode := by
  have hdef : ∀ d ∈ defs.zipIdx, (recordOf d).definition s.comps = d.1 := by
    intro d hd
    obtain ⟨hid, hname⟩ := h.comps d.2 d.1 (List.mem_zipIdx_iff_getElem?.mp hd)
    rw [LoadedCompInfo.definition, recordOf, hid, hname]
  rw [h.loaded, List.map_take, List.map_map, Function.comp_def, List.map_congr_left hdef,
    List.zipIdx_map_fst]

theorem Enters.threadDefs (h : s.Enters defs) (t : ℕ) :
    s.threadDefs t =
      ((defs.filter fun d => d.2 = t).map fun d => (d.1.id, d.1.name)).take maxCompPerThread := by
  have hdef : ∀ d ∈ defs.zipIdx.filter (fun d => d.1.2 = t),
      ((s.comps d.2).id, (s.comps d.2).name) = (d.1.1.id, d.1.1.name) := by
    intro d hd
    obtain ⟨hid, hname⟩ :=
      h.comps d.2 d.1 (List.mem_zipIdx_iff_getElem?.mp (List.mem_of_mem_filter hd))
    rw [hid, hname]
  rw [CompNode.threadDefs, h.threads, List.map_take, List.map_map]
  congr 1
  rw [Function.comp_def, List.map_congr_left hdef]
  conv_rhs => rw [← List.zipIdx_map_fst 0 defs, List.filter_map, List.map_map]
  rfl

end CompNode

end GeminiNOS

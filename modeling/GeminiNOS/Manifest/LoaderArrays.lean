import GeminiNOS.Component.Startup
import GeminiNOS.Manifest.Dependencies
import Mathlib.Data.List.TakeWhile

/-! # The arrays of a manifest

The C text of a manifest initialises arrays of fixed lengths, in which a terminator marks
the end. The compiler drops what is in excess, also the terminator, and the loops that load
the components read an element before they test their bound.
-/

namespace GeminiNOS

open Foundations

/-- The length of the arrays in `nos_thread_def_t`. -/
def maxThreadComps : ℕ := 16

/-- The length of `threads` in `nos_node_def_t`. -/
def maxThreads : ℕ := 8

/-- An array as the compiler initialises it: it drops what is in excess and fills up the rest. -/
def initArray {α : Type*} (n : ℕ) (zero : α) (init : List α) : Vector α n :=
  Vector.ofFn fun i => init.getD i zero

/-- The initialiser that is written for a list: a comma stands before the terminator, so that there
is none for an empty list. -/
def terminated {α : Type*} (items : List α) (terminator : α) : Option (List α) :=
  if items.isEmpty then none else some (items ++ [terminator])

/-- `nos_thread_def_t`; null is `none`. -/
structure NosThreadDef where
  name : Option String
  compIds : Vector ℕ maxThreadComps
  compNames : Vector (Option String) maxThreadComps
  compModels : Vector (Option String) maxThreadComps

def NosThreadDef.null : NosThreadDef where
  name := none
  compIds := initArray maxThreadComps 0 []
  compNames := initArray maxThreadComps none []
  compModels := initArray maxThreadComps none []

namespace NodeManifest

def threadDef (t : String × List CompDef) : Option NosThreadDef := do
  let ids ← terminated (t.2.map CompDef.id) 0
  let names ← terminated (t.2.map fun c => some c.name) none
  let libs ← terminated (t.2.map fun c => some c.libName) none
  some
    { name := some t.1
      compIds := initArray maxThreadComps 0 ids
      compNames := initArray maxThreadComps none names
      compModels := initArray maxThreadComps none libs }

/-- `threads` in `nos_node_def_t`, if the text is one of a program. -/
def threadArray (m : NodeManifest) : Option (Vector NosThreadDef maxThreads) :=
  (m.threads.mapM threadDef).map fun threads => initArray maxThreads .null (threads ++ [.null])

/-- The inner loop of `node_init_workers` from an index on, with the number of turns that its bound
leaves. It reads the id before it tests the bound. -/
def initComponents (tDef : NosThreadDef) (t : ℕ) (loads : ℕ → Option CompExport) :
    ℕ → ℕ → CompNode → Option CompNode
  | 0, j, s => tDef.compIds[j]?.map fun _ => s
  | turns + 1, j, s => do
    let id ← tDef.compIds[j]?
    if id = 0 then some s
    else
      let name ← tDef.compNames[j]?.join
      let libName ← tDef.compModels[j]?.join
      initComponents tDef t loads turns (j + 1) (s.initComponent t ⟨id, name, libName⟩ (loads j))

/-- The outer loop of `node_init_workers`. -/
def initThreads (threads : Vector NosThreadDef maxThreads) (loads : ℕ → ℕ → Option CompExport) :
    ℕ → ℕ → CompNode → Option CompNode
  | 0, i, s => threads[i]?.map fun _ => s
  | turns + 1, i, s => do
    let tDef ← threads[i]?
    if tDef.name.isNone then some s
    else
      let s ← initComponents tDef i (loads i) maxComponentsPerNode 0 s
      initThreads threads loads turns (i + 1) { s with workerCount := s.workerCount + 1 }

/-- `node_init_workers` on the arrays, with the outcomes of the loads. It fails where it reads past
an array. -/
def nodeInitWorkers (m : NodeManifest) (loads : ℕ → ℕ → Option CompExport) : Option CompNode := do
  let threads ← m.threadArray
  initThreads threads loads maxWorkers 0 (.zero m.nodeDef)

/-- The initialisers and their terminators fit the arrays. -/
structure InitsFit (m : NodeManifest) : Prop where
  threads : m.threads.length + 1 ≤ maxThreads
  comps : ∀ t ∈ m.threads, t.2 ≠ [] ∧ t.2.length + 1 ≤ maxThreadComps

end NodeManifest

namespace ConfData

def compDefs (data : ConfData) (t : ConfThread) : List CompDef :=
  t.components.filterMap fun compName =>
    (data.resolveComponent compName).map ResolvedComponent.toManifest

/-- The components that are configured for a node and whose load succeeds, with their threads. -/
def configured (data : ConfData) (n : ConfNode) (loads : ℕ → ℕ → Option CompExport) :
    List (CompDef × ℕ) :=
  (n.threads.map data.compDefs).zipIdx.flatMap fun td =>
    CompNode.enteredThread td.2 td.1.zipIdx (loads td.2)

/-- A node loads what is configured: whatever loads succeed, it reads nothing past an array, and the
table of loaded components and the lists of the threads have the configured components. -/
structure LoadsConfigured (data : ConfData) (n : ConfNode) (m : NodeManifest) : Prop where
  initsFit : m.InitsFit
  loads : ∀ loads, ∃ s, m.nodeInitWorkers loads = some s ∧
    s.loaded.map (LoadedCompInfo.definition s.comps) = data.configured n loads ∧
    ∀ t, s.threadDefs t =
      ((data.configured n loads).filter fun d => d.2 = t).map fun d => (d.1.id, d.1.name)

def FitsLoader (data : ConfData) (order : SetOrder) : Prop :=
  ∀ out, data.validateAndResolve order = some out → ∀ node ∈ out.1, ∀ m,
    generateNodeManifest node = some m → data.LoadsConfigured node.node m

/-- The condition on a node: at most seven threads of one to fifteen components each, at most
sixty-four components in all, and no id that is zero as `uint32_t`. -/
structure NodeFits (data : ConfData) (n : ConfNode) : Prop where
  threads : n.threads.length < maxThreads
  comps : ∀ t ∈ n.threads, t.components ≠ [] ∧ t.components.length < maxThreadComps
  total : (n.threads.flatMap ConfThread.components).length ≤ maxComponentsPerNode
  ids : ∀ t ∈ n.threads, ∀ compName ∈ t.components, ∀ comp, data.lastEntry compName = some comp →
    comp.id.map toUint32 ≠ some 0

end ConfData

theorem getElem?_initArray {α : Type*} {n i : ℕ} {zero : α} {init : List α} (hi : i < init.length)
    (hfit : init.length ≤ n) : (initArray n zero init)[i]? = some init[i] := by
  have hlt : i < n := Nat.lt_of_lt_of_le hi hfit
  rw [Vector.getElem?_eq_getElem hlt, initArray, Vector.getElem_ofFn]
  simp [hi]

theorem terminated_of_ne_nil {α : Type*} {items : List α} {terminator : α} (h : items ≠ []) :
    terminated items terminator = some (items ++ [terminator]) := by
  rw [terminated, if_neg (by simpa using h)]

theorem getElem?_terminated {α : Type*} {cs : List CompDef} {f : CompDef → α} {zero : α} {j : ℕ}
    (hlen : cs.length < maxThreadComps) (hj : j < cs.length) :
    (initArray maxThreadComps zero (cs.map f ++ [zero]))[j]? = some (f cs[j]) := by
  rw [getElem?_initArray (by rw [List.length_append, List.length_map]; omega)
    (by rw [List.length_append, List.length_map]; exact hlen),
    List.getElem_append_left (by rw [List.length_map]; exact hj), List.getElem_map]

namespace NodeManifest

variable {m : NodeManifest} {tDef : NosThreadDef} {cs : List CompDef} {t : ℕ}
  {loads : ℕ → Option CompExport}

/-- The arrays have the components of a thread, and a terminator behind them. -/
structure HasComps (tDef : NosThreadDef) (cs : List CompDef) : Prop where
  fits : cs.length < maxThreadComps
  ids : ∀ j (hj : j < cs.length), tDef.compIds[j]? = some cs[j].id
  names : ∀ j (hj : j < cs.length), tDef.compNames[j]? = some (some cs[j].name)
  models : ∀ j (hj : j < cs.length), tDef.compModels[j]? = some (some cs[j].libName)
  terminator : tDef.compIds[cs.length]? = some 0

theorem threadDef_eq {t : String × List CompDef} (hne : t.2 ≠ []) : threadDef t = some
    { name := some t.1
      compIds := initArray maxThreadComps 0 (t.2.map CompDef.id ++ [0])
      compNames := initArray maxThreadComps none (t.2.map (fun c => some c.name) ++ [none])
      compModels :=
        initArray maxThreadComps none (t.2.map (fun c => some c.libName) ++ [none]) } := by
  rw [threadDef, terminated_of_ne_nil (by simpa using hne),
    terminated_of_ne_nil (by simpa using hne), terminated_of_ne_nil (by simpa using hne)]
  rfl

theorem hasComps_of_fits {t : String × List CompDef} (hne : t.2 ≠ [])
    (hfit : t.2.length + 1 ≤ maxThreadComps) :
    ∃ tDef, threadDef t = some tDef ∧ tDef.name = some t.1 ∧ HasComps tDef t.2 := by
  refine ⟨_, threadDef_eq hne, rfl, hfit, fun j hj => getElem?_terminated hfit hj,
    fun j hj => getElem?_terminated hfit hj, fun j hj => getElem?_terminated hfit hj, ?_⟩
  rw [getElem?_initArray (by simp) (by simpa using hfit)]
  simp

theorem initComponents_eq (h : HasComps tDef cs) (turns j : ℕ) (s : CompNode)
    (hturns : turns + j = maxComponentsPerNode) (hj : j ≤ cs.length) :
    initComponents tDef t loads turns j s =
      some (((((cs.drop j).takeWhile (·.id ≠ 0)).take turns).zipIdx j).foldl
        (fun s c => s.initComponent t c.1 (loads c.2)) s) := by
  induction turns generalizing j s with
  | zero =>
    have hfits := h.fits
    have hbound : maxThreadComps ≤ maxComponentsPerNode := by decide
    omega
  | succ turns ih =>
    rcases Nat.lt_or_eq_of_le hj with hlt | rfl
    · simp only [initComponents, h.ids j hlt, h.names j hlt, h.models j hlt, Option.bind_eq_bind,
        Option.bind_some, Option.join_some]
      rw [List.drop_eq_getElem_cons hlt]
      by_cases hid : cs[j].id = 0
      · rw [if_pos hid, List.takeWhile_cons_of_neg (by simpa using hid)]
        rfl
      · rw [if_neg hid, List.takeWhile_cons_of_pos (by simpa using hid), List.take_succ_cons,
          List.zipIdx_cons, List.foldl_cons]
        exact ih (j + 1) (s.initComponent t cs[j] (loads j)) (by omega) hlt
    · simp only [initComponents, h.terminator, Option.bind_eq_bind, Option.bind_some, if_true]
      rw [List.drop_length]
      rfl

theorem initThreads_eq {threads : List (String × List CompDef)} {tDefs : List NosThreadDef}
    (hthreads : List.Forall₂
      (fun t tDef => tDef.name = some t.1 ∧ HasComps tDef t.2) threads tDefs)
    (hfit : threads.length < maxThreads) (loads : ℕ → ℕ → Option CompExport) (turns i : ℕ)
    (s : CompNode) (hturns : turns + i = maxWorkers) (hi : i ≤ threads.length) :
    initThreads (initArray maxThreads .null (tDefs ++ [.null])) loads turns i s =
      some (((((threads.map Prod.snd).drop i).take turns).zipIdx i).foldl
        (fun s td => s.initThread td.2 td.1 (loads td.2)) s) := by
  have hlen := hthreads.length_eq
  induction turns generalizing i s with
  | zero =>
    have hbound : maxThreads ≤ maxWorkers := by decide
    omega
  | succ turns ih =>
    have hinit : (tDefs ++ [NosThreadDef.null]).length = threads.length + 1 := by
      rw [List.length_append, hlen, List.length_singleton]
    have hlast : i < (tDefs ++ [NosThreadDef.null]).length := by omega
    have hread : (initArray maxThreads NosThreadDef.null (tDefs ++ [.null]))[i]? =
        some (tDefs ++ [.null])[i] := getElem?_initArray hlast (by omega)
    simp only [initThreads, hread, Option.bind_eq_bind, Option.bind_some]
    rcases Nat.lt_or_eq_of_le hi with hlt | rfl
    · have hlt' : i < tDefs.length := by omega
      have hmap : i < (threads.map Prod.snd).length := by rwa [List.length_map]
      obtain ⟨hname, hcomps⟩ := hthreads.get hlt hlt'
      have hcomps : initComponents (tDefs.get ⟨i, hlt'⟩) i (loads i) maxComponentsPerNode 0 s = _ :=
        initComponents_eq hcomps maxComponentsPerNode 0 s rfl (Nat.zero_le _)
      have hget : (tDefs ++ [NosThreadDef.null])[i] = tDefs.get ⟨i, hlt'⟩ :=
        List.getElem_append_left hlt'
      rw [hget, hname, hcomps, List.drop_eq_getElem_cons hmap, List.getElem_map,
        List.take_succ_cons, List.zipIdx_cons, List.foldl_cons]
      exact ih (i + 1) _ (by omega) hlt
    · have hget : (tDefs ++ [NosThreadDef.null])[threads.length] = .null := by
        simp [hlen]
      rw [hget, List.drop_of_length_le (by rw [List.length_map])]
      rfl

/-- The loader on the arrays of a manifest that fits them does what it does on lists. -/
theorem nodeInitWorkers_eq (h : m.InitsFit) (loads : ℕ → ℕ → Option CompExport) :
    m.nodeInitWorkers loads = some ((CompNode.zero m.nodeDef).nodeInitWorkers loads) := by
  have hthreads : ∀ threads : List (String × List CompDef),
      (∀ t ∈ threads, t.2 ≠ [] ∧ t.2.length + 1 ≤ maxThreadComps) →
      ∃ tDefs, threads.mapM threadDef = some tDefs ∧ List.Forall₂
        (fun t tDef => tDef.name = some t.1 ∧ HasComps tDef t.2) threads tDefs := by
    intro threads hfit
    induction threads with
    | nil => exact ⟨[], rfl, .nil⟩
    | cons t threads ih =>
      obtain ⟨hne, hlen⟩ := hfit t List.mem_cons_self
      obtain ⟨tDef, hdef, hcomps⟩ := hasComps_of_fits hne hlen
      obtain ⟨tDefs, hdefs, hrest⟩ := ih fun t' ht' => hfit t' (List.mem_cons_of_mem t ht')
      refine ⟨tDef :: tDefs, ?_, .cons hcomps hrest⟩
      rw [List.mapM_cons, hdef, hdefs]
      rfl
  obtain ⟨tDefs, hdefs, hforall⟩ := hthreads m.threads h.comps
  simp only [nodeInitWorkers, threadArray, hdefs, Option.map_some, Option.bind_eq_bind,
    Option.bind_some]
  exact initThreads_eq hforall h.threads loads maxWorkers 0 _ rfl (Nat.zero_le _)

end NodeManifest

namespace CompNode

variable {t k : ℕ} {threads : List (List CompDef)}

theorem id_ne_zero_of_mem_entered {nodeDef : NosNodeDef} {loads : ℕ → ℕ → Option CompExport}
    {d : CompDef × ℕ} (h : d ∈ entered nodeDef loads) : d.1.id ≠ 0 := by
  obtain ⟨td, -, hd⟩ := List.mem_flatMap.mp h
  obtain ⟨c, hc, rfl⟩ := List.mem_map.mp hd
  have hmem := List.mem_of_mem_take (List.fst_mem_of_mem_zipIdx (List.mem_of_mem_filter hc))
  have hid := List.mem_takeWhile_imp hmem
  exact of_decide_eq_true hid

theorem length_entered_le (threads : List (List CompDef)) (k : ℕ)
    (loads : ℕ → ℕ → Option CompExport) :
    ((threads.zipIdx k).flatMap fun td => enteredThread td.2 td.1.zipIdx (loads td.2)).length ≤
      (threads.map List.length).sum := by
  induction threads generalizing k with
  | nil => exact le_rfl
  | cons cs threads ih =>
    rw [List.zipIdx_cons, List.flatMap_cons, List.length_append, List.map_cons, List.sum_cons]
    refine Nat.add_le_add ?_ (ih (k + 1))
    have hlen := length_enteredThread_le k cs.zipIdx (loads k)
    rwa [List.length_zipIdx] at hlen

theorem length_entered_allLoad (threads : List (List CompDef)) (k : ℕ) :
    ((threads.zipIdx k).flatMap fun td =>
      enteredThread td.2 td.1.zipIdx (allLoad td.2)).length = (threads.map List.length).sum := by
  induction threads generalizing k with
  | nil => rfl
  | cons cs threads ih =>
    have hall : cs.zipIdx.filter (fun c => (allLoad k c.2).isSome) = cs.zipIdx :=
      List.filter_eq_self.mpr fun _ _ => rfl
    rw [List.zipIdx_cons, List.flatMap_cons, List.length_append, List.map_cons, List.sum_cons, ih,
      enteredThread, List.length_map, hall, List.length_zipIdx]

end CompNode

namespace ConfData

variable {data : ConfData} {order : SetOrder} {n : ConfNode} {m : NodeManifest}

theorem resolveThread_eq_some {t : ConfThread} {p : String × List ResolvedComponent}
    (h : data.resolveThread t = some p) :
    p.2.map ResolvedComponent.toManifest = data.compDefs t ∧
      p.2.length = t.components.length := by
  obtain ⟨comps, hcomps, rfl⟩ := Option.map_eq_some_iff.mp h
  have hmap := map_eq_of_mapM hcomps
  have hlen := congrArg List.length hmap
  rw [List.length_map, List.length_map] at hlen
  refine ⟨?_, hlen.symm⟩
  have hdefs := congrArg (List.filterMap (Option.map ResolvedComponent.toManifest)) hmap
  rw [List.filterMap_map, List.filterMap_map] at hdefs
  refine Eq.trans ?_ hdefs.symm
  exact (List.filterMap_eq_map (f := ResolvedComponent.toManifest)).symm ▸ rfl

theorem threads_of_generate {svcMap : AList fun _ : String => ServiceRecord} {node : ResolvedNode}
    (hnode : data.resolveNode order svcMap n = some node)
    (hm : generateNodeManifest node = some m) :
    m.threads.map Prod.snd = n.threads.map data.compDefs := by
  obtain ⟨-, hthreads, -⟩ := resolveNode_eq_some hnode
  obtain ⟨-, -, hm, -⟩ := generateNodeManifest_eq_some hm
  rw [hm, List.map_map, ← List.forall₂_eq_eq_eq, List.forall₂_map_left_iff,
    List.forall₂_map_right_iff]
  exact (forall₂_of_mapM hthreads).flip.imp fun p t hp => (resolveThread_eq_some hp).1

theorem exists_of_resolveNode {svcMap : AList fun _ : String => ServiceRecord} {node : ResolvedNode}
    (hnode : data.resolveNode order svcMap n = some node) {t : ConfThread} (ht : t ∈ n.threads) :
    (data.compDefs t).length = t.components.length ∧
      ∀ compName ∈ t.components, ∃ rc, data.resolveComponent compName = some rc := by
  obtain ⟨-, hthreads, -⟩ := resolveNode_eq_some hnode
  obtain ⟨p, -, hp⟩ := mem_mapM_of_mem hthreads ht
  obtain ⟨hdefs, hlen⟩ := resolveThread_eq_some hp
  refine ⟨by rw [← hdefs, List.length_map, hlen], fun compName hname => ?_⟩
  obtain ⟨comps, hcomps, -⟩ := Option.map_eq_some_iff.mp hp
  obtain ⟨rc, -, hrc⟩ := mem_mapM_of_mem hcomps hname
  exact ⟨rc, hrc⟩

theorem mem_compDefs {t : ConfThread} {c : CompDef} : c ∈ data.compDefs t ↔
    ∃ compName ∈ t.components, ∃ rc, data.resolveComponent compName = some rc ∧
      rc.toManifest = c := by
  simp only [compDefs, List.mem_filterMap, Option.map_eq_some_iff]

theorem id_of_resolveComponent {compName : String} {rc : ResolvedComponent}
    (h : data.resolveComponent compName = some rc) :
    ∃ comp, data.lastEntry compName = some comp ∧
      comp.id.map toUint32 = some rc.toManifest.id := by
  obtain ⟨comp, hcomp, h⟩ := Option.bind_eq_some_iff.mp h
  obtain ⟨id, hid, h⟩ := Option.bind_eq_some_iff.mp h
  obtain ⟨model, -, h⟩ := Option.bind_eq_some_iff.mp h
  obtain rfl := Option.some.inj h
  rw [lookup_compMap_eq_lastEntry] at hcomp
  exact ⟨comp, hcomp, by rw [hid]; rfl⟩

theorem mem_configured_allLoad {t : ConfThread} (ht : t ∈ n.threads) {c : CompDef}
    (hc : c ∈ data.compDefs t) : ∃ k, (c, k) ∈ data.configured n allLoad := by
  have hcs : data.compDefs t ∈ n.threads.map data.compDefs := List.mem_map_of_mem ht
  obtain ⟨k, hk⟩ := List.mem_iff_getElem?.mp hcs
  obtain ⟨j, hj⟩ := List.mem_iff_getElem?.mp hc
  refine ⟨k, List.mem_flatMap.mpr ⟨_, List.mk_mem_zipIdx_iff_getElem?.mpr hk, ?_⟩⟩
  refine List.mem_map.mpr ⟨(c, j), ?_, rfl⟩
  exact List.mem_filter.mpr ⟨List.mk_mem_zipIdx_iff_getElem?.mpr hj, rfl⟩

theorem id_ne_zero_of_nodeFits (h : data.NodeFits n) {t : ConfThread} (ht : t ∈ n.threads)
    {c : CompDef} (hc : c ∈ data.compDefs t) : c.id ≠ 0 := by
  obtain ⟨compName, hname, rc, hrc, rfl⟩ := mem_compDefs.mp hc
  obtain ⟨comp, hcomp, hid⟩ := id_of_resolveComponent hrc
  have hne := h.ids t ht compName hname comp hcomp
  rw [hid] at hne
  exact fun hzero => hne (congrArg some hzero)

/-- If the threads fit, the loops go through the components before the first id that is zero. -/
theorem entered_eq {nodeDef : NosNodeDef} (hthreads : nodeDef.threads.length < maxThreads)
    (hcomps : ∀ cs ∈ nodeDef.threads, cs.length < maxThreadComps)
    (loads : ℕ → ℕ → Option CompExport) : CompNode.entered nodeDef loads =
      nodeDef.threads.zipIdx.flatMap fun td =>
        CompNode.enteredThread td.2 (td.1.takeWhile (·.id ≠ 0)).zipIdx (loads td.2) := by
  have hworkers : maxThreads ≤ maxWorkers := le_rfl
  have hbound : maxThreadComps ≤ maxComponentsPerNode := by decide
  rw [CompNode.entered, List.take_of_length_le (by omega)]
  refine List.flatMap_congr fun td htd => ?_
  have hlen := hcomps td.1 (List.fst_mem_of_mem_zipIdx htd)
  have hle := (List.takeWhile_prefix (fun c : CompDef => c.id ≠ 0) (l := td.1)).length_le
  rw [List.take_of_length_le (by omega)]

theorem entered_of_nodeFits (h : data.NodeFits n)
    (hthreads : m.threads.map Prod.snd = n.threads.map data.compDefs)
    (hlen : ∀ t ∈ n.threads, (data.compDefs t).length = t.components.length)
    (loads : ℕ → ℕ → Option CompExport) :
    CompNode.entered m.nodeDef loads = data.configured n loads := by
  have hdef : m.nodeDef.threads = n.threads.map data.compDefs := hthreads
  rw [entered_eq (by rw [hdef, List.length_map]; exact h.threads), hdef, configured]
  · refine List.flatMap_congr fun td htd => ?_
    obtain ⟨t, ht, hcs⟩ := List.mem_map.mp (List.fst_mem_of_mem_zipIdx htd)
    have hall : td.1.takeWhile (fun c => c.id ≠ 0) = td.1 := by
      rw [List.takeWhile_eq_self_iff]
      intro c hc
      rw [← hcs] at hc
      exact decide_eq_true (id_ne_zero_of_nodeFits h ht hc)
    rw [hall]
  · rw [hdef]
    intro cs hcs
    obtain ⟨t, ht, rfl⟩ := List.mem_map.mp hcs
    rw [hlen t ht]
    exact (h.comps t ht).2

/-- The initialisers fit if the node has few enough threads and components. -/
theorem initsFit_iff (hthreads : m.threads.map Prod.snd = n.threads.map data.compDefs)
    (hlen : ∀ t ∈ n.threads, (data.compDefs t).length = t.components.length) :
    m.InitsFit ↔ n.threads.length < maxThreads ∧
      ∀ t ∈ n.threads, t.components ≠ [] ∧ t.components.length < maxThreadComps := by
  have hcount : m.threads.length = n.threads.length := by
    simpa using congrArg List.length hthreads
  have hnil : ∀ t ∈ n.threads, data.compDefs t ≠ [] ↔ t.components ≠ [] := by
    intro t ht
    rw [← List.length_pos_iff, ← List.length_pos_iff, hlen t ht]
  constructor
  · rintro ⟨hfew, hcomps⟩
    refine ⟨hcount ▸ hfew, fun t ht => ?_⟩
    have hmem : data.compDefs t ∈ m.threads.map Prod.snd := by
      rw [hthreads]
      exact List.mem_map_of_mem ht
    obtain ⟨p, hp, he⟩ := List.mem_map.mp hmem
    obtain ⟨hne, hfit⟩ := hcomps p hp
    rw [he] at hne hfit
    exact ⟨(hnil t ht).mp hne, hlen t ht ▸ hfit⟩
  · rintro ⟨hfew, hcomps⟩
    refine ⟨hcount ▸ hfew, fun p hp => ?_⟩
    have hmem : p.2 ∈ n.threads.map data.compDefs := by
      rw [← hthreads]
      exact List.mem_map_of_mem hp
    obtain ⟨t, ht, he⟩ := List.mem_map.mp hmem
    obtain ⟨hne, hfit⟩ := hcomps t ht
    rw [← he]
    exact ⟨(hnil t ht).mpr hne, (hlen t ht).symm ▸ hfit⟩

theorem sum_length_compDefs
    (hlen : ∀ t ∈ n.threads, (data.compDefs t).length = t.components.length) :
    ((n.threads.map data.compDefs).map List.length).sum =
      (n.threads.flatMap ConfThread.components).length := by
  rw [List.length_flatMap, List.map_map]
  exact congrArg List.sum (List.map_congr_left hlen)

/-- A node loads what is configured if and only if it meets the condition. -/
theorem loadsConfigured_iff {svcMap : AList fun _ : String => ServiceRecord} {node : ResolvedNode}
    (hnode : data.resolveNode order svcMap n = some node)
    (hm : generateNodeManifest node = some m) : data.LoadsConfigured n m ↔ data.NodeFits n := by
  have hthreads := threads_of_generate hnode hm
  have hlen := fun t ht => (exists_of_resolveNode hnode (t := t) ht).1
  have hinits := initsFit_iff hthreads hlen
  have hentered := fun loads => CompNode.enters_nodeInitWorkers m.nodeDef loads
  constructor
  · rintro ⟨hfit, hloads⟩
    obtain ⟨hfew, hcomps⟩ := hinits.mp hfit
    obtain ⟨s, hs, hdefs, -⟩ := hloads allLoad
    obtain rfl := Option.some.inj ((NodeManifest.nodeInitWorkers_eq hfit allLoad).symm.trans hs)
    rw [(hentered allLoad).loadedDefs] at hdefs
    refine ⟨hfew, hcomps, ?_, fun t ht compName hname comp hcomp => ?_⟩
    · rw [← sum_length_compDefs hlen, ← CompNode.length_entered_allLoad _ 0]
      have hle := List.length_take_le maxComponentsPerNode (CompNode.entered m.nodeDef allLoad)
      rwa [hdefs] at hle
    · obtain ⟨rc, hrc⟩ := (exists_of_resolveNode hnode ht).2 compName hname
      obtain ⟨comp', hcomp', hid⟩ := id_of_resolveComponent hrc
      obtain rfl := Option.some.inj (hcomp.symm.trans hcomp')
      obtain ⟨k, hk⟩ := mem_configured_allLoad ht (mem_compDefs.mpr ⟨compName, hname, rc, hrc, rfl⟩)
      rw [← hdefs] at hk
      have hne := CompNode.id_ne_zero_of_mem_entered (List.mem_of_mem_take hk)
      rw [hid]
      exact fun hzero => hne (Option.some.inj hzero)
  · intro h
    have hfit := hinits.mpr ⟨h.threads, h.comps⟩
    refine ⟨hfit, fun loads => ⟨_, NodeManifest.nodeInitWorkers_eq hfit loads, ?_, fun t => ?_⟩⟩
    · rw [(hentered loads).loadedDefs, entered_of_nodeFits h hthreads hlen]
      refine List.take_of_length_le (le_trans (CompNode.length_entered_le _ 0 loads) ?_)
      rw [sum_length_compDefs hlen]
      exact h.total
    · rw [(hentered loads).threadDefs, entered_of_nodeFits h hthreads hlen]
      refine List.take_of_length_le ?_
      rw [List.length_map]
      refine CompNode.length_filter_flatMap_le
        (fun td d hd => CompNode.thread_of_mem_enteredThread hd) (fun td htd => ?_) t
      obtain ⟨t', ht', hcs⟩ := List.mem_map.mp (List.fst_mem_of_mem_zipIdx htd)
      have hle := CompNode.length_enteredThread_le td.2 td.1.zipIdx (loads td.2)
      have hfew := (h.comps t' ht').2
      have hbound : maxThreadComps ≤ maxCompPerThread := by decide
      rw [List.length_zipIdx, ← hcs, hlen t' ht'] at hle
      rw [← hcs]
      omega

/-- The manifests of a configuration that the generator accepts fit the loader if and only if its
nodes meet the condition. -/
theorem fitsLoader_iff {ms : List NodeManifest} (haccepted : data.genManifest order = some ms) :
    data.FitsLoader order ↔ ∀ n ∈ data.nodes, data.NodeFits n := by
  obtain ⟨out, hout, hms⟩ := Option.bind_eq_some_iff.mp haccepted
  obtain ⟨svcMap, -, hnodes, -⟩ := validateAndResolve_eq_some hout
  constructor
  · intro h n hn
    obtain ⟨node, hnode, hresolve⟩ := mem_mapM_of_mem hnodes hn
    obtain ⟨m, -, hm⟩ := mem_mapM_of_mem hms hnode
    have hloads := h out hout node hnode m hm
    rw [(resolveNode_eq_some hresolve).1] at hloads
    exact (loadsConfigured_iff hresolve hm).mp hloads
  · intro h out' hout' node hnode m hm
    obtain rfl := Option.some.inj (hout.symm.trans hout')
    obtain ⟨n, hn, hresolve⟩ := exists_of_mem_mapM hnodes hnode
    rw [(resolveNode_eq_some hresolve).1]
    exact (loadsConfigured_iff hresolve hm).mpr (h n hn)

end ConfData

def oneThread (count : ℕ) : ConfData where
  nodes := [⟨"A", some "a.sock", none, none,
    [⟨"W", (List.range count).map fun i => String.ofList (List.replicate (i + 1) 'x')⟩]⟩]
  components := (List.range count).map fun i =>
    ⟨String.ofList (List.replicate (i + 1) 'x'), some (i + 1), some "M", [], []⟩
  profiles := []
  models := [⟨"M", "libm.so"⟩]
  platform := []

/-- Fifteen components and a terminator fit the arrays of a thread. -/
theorem fitsLoader_fifteen : (oneThread 15).FitsLoader .insertion := by
  have haccepted : (oneThread 15).genManifest .insertion =
      some (((oneThread 15).genManifest .insertion).get rfl) := rfl
  refine (ConfData.fitsLoader_iff haccepted).mpr fun n hn => ?_
  obtain rfl := List.mem_singleton.mp hn
  refine ⟨by decide, by decide, by decide, fun t ht compName hname comp hcomp => ?_⟩
  have hids : ∀ comp ∈ (oneThread 15).components, comp.id.map toUint32 ≠ some 0 := by decide
  exact hids comp (ConfData.lastEntry_name hcomp).1

/-- Sixteen components leave no room for the terminator: the loader reads past `comp_ids`. -/
theorem not_fitsLoader_sixteen : ¬(oneThread 16).FitsLoader .insertion ∧
    ∃ m, (oneThread 16).genManifest .insertion = some [m] ∧
      ∀ loads, m.nodeInitWorkers loads = none := by
  refine ⟨fun h => ?_, _, rfl, fun loads => rfl⟩
  obtain ⟨s, hs, -⟩ := (h _ rfl _ (.head _) _ rfl).loads allLoad
  cases hs

end GeminiNOS

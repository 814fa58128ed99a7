import GeminiNOS.Component.Confinement
import GeminiNOS.Manifest.Upkeep

/-! # One thread for each component

What a configuration places on a thread runs there only: the callbacks of a component are never made
by two threads, not even by that of its old instance and that of its new one.
-/

namespace GeminiNOS

open Foundations

namespace ConfData

/-- All callbacks so far were made by the threads that the configuration gives their components to,
and those of one component by one thread. -/
structure Confined (n : ConfNode) (s : ThreadedNode) : Prop where
  place : ∀ call ∈ s.ran, ∃ j, n.componentAt call.2 j = some (s.node.comps call.1).name
  alone : ∀ call ∈ s.ran, ∀ call' ∈ s.ran,
    (s.node.comps call.1).name = (s.node.comps call'.1).name → call.2 = call'.2

variable {data : ConfData} {order : SetOrder} {n : ConfNode} {m : NodeManifest}
  {svcMap : AList fun _ : String => ServiceRecord} {loads : ℕ → ℕ → Option CompExport}

theorem Generated.place_of_belongs (h : data.Deployable) (hg : data.Generated order svcMap n m)
    {c : NosComponent} {t : ℕ} (hc : Belongs (CompNode.entered m.nodeDef loads) c t) :
    ∃ j, n.componentAt t j = some c.name := by
  obtain ⟨d, hd, -, hname, rfl⟩ := hc
  rw [hg.entered_eq (h.fits n hg.node)] at hd
  obtain ⟨comp, -, j, hplace, hdname, -⟩ := hg.place_of_configured hd
  refine ⟨j, hplace.trans ?_⟩
  rw [← hdname, hname]

theorem Generated.confined (h : data.Deployable) (hg : data.Generated order svcMap n m)
    {s : ThreadedNode} (hran : ∀ call ∈ s.ran,
      s.node.Hosts (CompNode.entered m.nodeDef loads) call.1 call.2) : Confined n s := by
  have hplace : ∀ call ∈ s.ran, ∃ j, n.componentAt call.2 j = some (s.node.comps call.1).name :=
    fun call hcall => hg.place_of_belongs h (hran call hcall).2
  refine ⟨hplace, fun call hcall call' hcall' hname => ?_⟩
  obtain ⟨j, hj⟩ := hplace call hcall
  obtain ⟨j', hj'⟩ := hplace call' hcall'
  rw [← hname] at hj'
  exact (h.position_unique hg.node hj hj').1

theorem Generated.confined_of_run (h : data.Deployable) (hg : data.Generated order svcMap n m)
    (loads : ℕ → ℕ → Option CompExport) (actions : List ThreadedAction)
    (hquiet : Run.Guarded ThreadedNode.step ThreadedNode.Quiet
      (ThreadedNode.startup m.nodeDef loads) actions) :
    Run.Always ThreadedNode.step (Confined n) (ThreadedNode.startup m.nodeDef loads) actions := by
  have hids := (hg.fitting h loads).ids
  rw [← hg.entered_eq (h.fits n hg.node)] at hids
  apply ThreadedNode.always_of_sound _ hids (hg.services h).1 hquiet
  exact fun s hs => hg.confined h hs.ran

end ConfData

/-- Components are confined to their threads. In every interleaving of workers, timers and commands
that unload and reload, if no component is unloaded while a worker stands between its lookup and its
call, every start, message and timer of a component is handled by the one thread that the
configuration gives it to. -/
theorem always_confined {data : ConfData} {order : SetOrder} {ms : List NodeManifest}
    (haccepted : data.genManifest order = some ms) (h : data.Deployable) :
    List.Forall₂ (fun n m => ∀ loads actions,
      Run.Guarded ThreadedNode.step ThreadedNode.Quiet (ThreadedNode.startup m.nodeDef loads)
        actions →
      Run.Always ThreadedNode.step (ConfData.Confined n) (ThreadedNode.startup m.nodeDef loads)
        actions) data.nodes ms := by
  obtain ⟨svcMap, hgenerated⟩ := ConfData.generated_of_genManifest haccepted
  exact hgenerated.imp fun _ _ hg loads actions hquiet => hg.confined_of_run h loads actions hquiet

/-- The node of `Y`. -/
def nodeB : NosNodeDef where
  name := "B"
  threads := [[⟨2, "Y", "libm.so"⟩]]
  services := [⟨7, "B", 2, some "b.sock"⟩, ⟨8, "A", 1, some "a.sock"⟩]

/-- The new instance of a component gets a message and a timer on the thread of the old. -/
theorem always_confined_reload : ∃ s, s.ran = [(0, 0), (1, 0), (1, 0)] ∧
    ConfData.Confined ⟨"B", some "b.sock", none, none, [⟨"W", ["Y"]⟩]⟩ s := by
  obtain ⟨a, b, haccepted, hb⟩ : ∃ a b, (twoNodes 7 8).genManifest .insertion = some [a, b] ∧
      b.nodeDef = nodeB := ⟨_, _, rfl, rfl⟩
  cases always_confined haccepted deployable_twoNodes with
  | cons _ hrest =>
    cases hrest with
    | cons halways _ =>
      rw [hb] at halways
      have hrun := halways (fun _ _ => some ⟨true, true⟩)
        [.beginLoop 0, .startNext 0 .ok, .startNext 0 .ok, .node (.reload "Y"),
          .node (.cliStep true none), .node (.cliStep true none), .node (.cliStep true none),
          .node (.cliStep true none), .node (.cliStep true (some ⟨true, true⟩)),
          .node (.cliStep true none), .node (.cliStep true none), .node (.send 7),
          .node (.worker 0), .node (.worker 0), .node (.worker 0), .createTimer 1 1 (some 5) none,
          .startTimer 1 0 20 true, .fire 0 20 21] <| by
        refine .cons rfl trivial (.cons rfl trivial (.cons rfl trivial (.cons rfl trivial
          (.cons rfl ?_ (.cons rfl ?_ (.cons rfl ?_ (.cons rfl ?_ (.cons rfl ?_ (.cons rfl ?_
            (.cons rfl ?_ (.cons rfl trivial (.cons rfl trivial (.cons rfl trivial
              (.cons rfl trivial (.cons rfl trivial (.cons rfl trivial
                (.cons rfl trivial trivial)))))))))))))))))
        -- The unload takes four steps.
        · rintro - t i ⟨⟩
        · rintro - t i ⟨⟩
        · rintro - t i ⟨⟩
        · rintro - t i ⟨⟩
        · rintro ⟨⟩
        · rintro ⟨⟩
        · rintro ⟨⟩
      obtain ⟨s, hs, hran⟩ := hrun.exists_last ThreadedNode.ran _ rfl
      exact ⟨s, hran, hs⟩

end GeminiNOS

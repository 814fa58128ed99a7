import GeminiNOS.Manifest.Generate

/-! # What the generator reads

The manifests do not depend on the types of the services, nor on whether a node gives
the default buffer profile or none.
-/

namespace GeminiNOS

open Foundations

namespace ConfData

variable (data : ConfData) (order : SetOrder)

theorem lookup_compMap_forGenerator (name : String) :
    data.forGenerator.compMap.lookup name =
      (data.compMap.lookup name).map ConfComponent.forGenerator := by
  rw [compMap, compMap, ← lookup_dictOf_map, List.map_map, forGenerator, List.map_map]
  rfl

theorem nodeToUds_forGenerator : data.forGenerator.nodeToUds = data.nodeToUds := by
  rw [nodeToUds, nodeToUds, forGenerator, List.mapM_map]
  rfl

theorem placements_forGenerator : data.forGenerator.placements = data.placements := by
  simp only [placements, lookup_compMap_forGenerator, Option.isSome_map]
  rw [forGenerator, List.flatMap_map]
  rfl

theorem compToNode_forGenerator : data.forGenerator.compToNode = data.compToNode := by
  rw [compToNode, compToNode, placements_forGenerator]

theorem providerRecord_forGenerator (nodeToUds : AList fun _ : String => String)
    (comp : ConfComponent) (svc : ConfService) :
    data.forGenerator.providerRecord nodeToUds comp.forGenerator svc.forGenerator =
      data.providerRecord nodeToUds comp svc := by
  rw [providerRecord, compToNode_forGenerator]
  rfl

theorem providerRecords_forGenerator (nodeToUds : AList fun _ : String => String) :
    data.forGenerator.providerRecords nodeToUds = data.providerRecords nodeToUds := by
  have hlist : (data.forGenerator.components.flatMap fun comp => comp.provides.map (comp, ·)) =
      (data.components.flatMap fun comp => comp.provides.map (comp, ·)).map
        fun p => (p.1.forGenerator, p.2.forGenerator) := by
    simp only [forGenerator, List.flatMap_map, List.map_flatMap, List.map_map]
    congr 1
    funext comp
    simp [ConfComponent.forGenerator, Function.comp_def]
  rw [providerRecords, providerRecords, hlist, List.mapM_map]
  congr 1
  funext p
  exact data.providerRecord_forGenerator nodeToUds p.1 p.2

theorem globalSvcMap_forGenerator : data.forGenerator.globalSvcMap = data.globalSvcMap := by
  have hplatform : data.forGenerator.platform.map platformRecord =
      data.platform.map platformRecord := by
    rw [forGenerator, List.map_map]
    rfl
  simp only [globalSvcMap, nodeToUds_forGenerator, providerRecords_forGenerator, hplatform]

theorem resolveThread_forGenerator : data.forGenerator.resolveThread = data.resolveThread := by
  have hcomponent : data.forGenerator.resolveComponent = data.resolveComponent := by
    funext compName
    rw [resolveComponent, resolveComponent, lookup_compMap_forGenerator]
    cases data.compMap.lookup compName <;> rfl
  funext t
  rw [resolveThread, resolveThread, hcomponent]

theorem neededSvcNames_forGenerator (n : ConfNode) :
    data.forGenerator.neededSvcNames n.forGenerator = data.neededSvcNames n := by
  simp only [neededSvcNames, lookup_compMap_forGenerator]
  congr 1
  funext compName
  cases data.compMap.lookup compName with
  | none => rfl
  | some comp => simp [ConfComponent.forGenerator, ConfService.forGenerator, Function.comp_def]

theorem resolveNode_forGenerator (svcMap : AList fun _ : String => ServiceRecord) (n : ConfNode) :
    data.forGenerator.resolveNode order svcMap n.forGenerator =
      (data.resolveNode order svcMap n).map
        fun rn => { rn with node := rn.node.forGenerator } := by
  rw [resolveNode, resolveNode, resolveThread_forGenerator, neededSvcNames_forGenerator]
  change (n.threads.mapM data.resolveThread).bind _ = _
  cases n.threads.mapM data.resolveThread <;> rfl

theorem compIds_forGenerator : data.forGenerator.compIds = data.compIds := by
  rw [compIds, compIds, forGenerator, List.mapM_map]
  rfl

theorem svcNameToId_forGenerator : data.forGenerator.svcNameToId = data.svcNameToId := by
  have hservices : data.forGenerator.services = data.services.map ConfService.forGenerator := by
    simp [services, forGenerator, List.flatMap_map, List.map_flatMap, ConfComponent.forGenerator]
  rw [svcNameToId, svcNameToId, hservices, List.map_map]
  rfl

theorem genManifest_forGenerator :
    data.forGenerator.genManifest order = data.genManifest order := by
  have hnodes (svcMap : AList fun _ : String => ServiceRecord) :
      data.forGenerator.nodes.mapM (data.forGenerator.resolveNode order svcMap) =
        (data.nodes.mapM (data.resolveNode order svcMap)).map
          (List.map fun rn => { rn with node := rn.node.forGenerator }) := by
    rw [← mapM_option_map]
    simp only [← resolveNode_forGenerator]
    exact List.mapM_map
  rw [genManifest, genManifest, validateAndResolve, validateAndResolve, globalSvcMap_forGenerator,
    compIds_forGenerator, svcNameToId_forGenerator]
  cases data.globalSvcMap with
  | none => rfl
  | some svcMap =>
    simp only [Option.bind_eq_bind, Option.bind_some, hnodes]
    cases data.nodes.mapM (data.resolveNode order svcMap) with
    | none => rfl
    | some resolved =>
      cases data.compIds with
      | none => rfl
      | some ids =>
        simp only [Option.map_some, Option.bind_some, List.mapM_map]
        rfl

theorem genManifest_congr {data' : ConfData} (h : data.forGenerator = data'.forGenerator) :
    data.genManifest order = data'.genManifest order := by
  rw [← genManifest_forGenerator, h, genManifest_forGenerator]

end ConfData

end GeminiNOS

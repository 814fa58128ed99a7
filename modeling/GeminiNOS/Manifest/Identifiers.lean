import GeminiNOS.Manifest.Dependencies

/-! # Identifiers

The ids of the components and of the services are taken as the configuration has them. The
dictionaries that the header comes from have one id for each name, and the macro of a name
does not keep its case, nor its punctuation.
-/

namespace GeminiNOS

open Foundations

def macroChar (c : Char) : Char := if c.isAlphanum then c.toUpper else '_'

/-- `to_c_macro` -/
def toCMacro (name : String) : String := String.ofList (name.toList.map macroChar)

def defineLine (e : String × ℤ) : String :=
  "#define " ++ (toCMacro e.1).pushn ' ' (20 - (toCMacro e.1).length) ++ " " ++ toString e.2

def sortedById (items : List (String × ℤ)) : List (String × ℤ) :=
  items.mergeSort fun e e' => e.2 ≤ e'.2

/-- `generate_header` -/
def generateHeader (compIds svcIds : List (String × ℤ)) : String :=
  "\n".intercalate
    (["#ifndef __NOS_IDS_H__", "#define __NOS_IDS_H__", "", "/* Component IDs */"] ++
      (sortedById compIds).map defineLine ++ ["\n/* Service IDs */"] ++
      (sortedById svcIds).map defineLine ++ ["\n#endif"])

def headerItems (compIds svcIds : List (String × ℤ)) : List (String × ℤ) :=
  sortedById compIds ++ sortedById svcIds

/-- Characters that a macro does not tell apart: both are neither letter nor digit, or they agree up
to case. -/
def SameMacroChar (c c' : Char) : Prop :=
  c.isAlphanum = c'.isAlphanum ∧ (c.isAlphanum = true → c.toUpper = c'.toUpper)

theorem toUpper_ne_underscore {c : Char} (hc : c.isAlphanum = true) : c.toUpper ≠ '_' := by
  intro he
  unfold Char.toUpper at he
  split at he
  next h =>
    have hle := UInt32.le_iff_toNat_le.mp h.2
    have hnat := congrArg UInt32.toNat (Char.ext_iff.mp he)
    simp only [UInt32.toNat_add] at hnat
    have hlt := c.val.toNat_lt
    have hdiff : ('A'.val - 'a'.val).toNat = 4294967264 := rfl
    have hz : 'z'.val.toNat = 122 := rfl
    have hunderscore : '_'.val.toNat = 95 := rfl
    omega
  next => exact absurd (he ▸ hc) (by decide)

theorem macroChar_eq_iff {c c' : Char} : macroChar c = macroChar c' ↔ SameMacroChar c c' := by
  unfold macroChar SameMacroChar
  cases hc : c.isAlphanum <;> cases hc' : c'.isAlphanum
  · simp
  · simpa using (toUpper_ne_underscore hc').symm
  · simpa using toUpper_ne_underscore hc
  · simp

theorem toCMacro_eq_iff {name name' : String} :
    toCMacro name = toCMacro name' ↔ List.Forall₂ SameMacroChar name.toList name'.toList := by
  rw [toCMacro, toCMacro, String.ofList_inj, ← List.forall₂_eq_eq_eq, List.forall₂_map_left_iff,
    List.forall₂_map_right_iff]
  simp only [macroChar_eq_iff]

/-- A dictionary gives different names different ids, as `uint32_t`. -/
def DistinctIds (ids : AList fun _ : String => ℤ) : Prop :=
  ∀ name name' id id', ids.lookup name = some id → ids.lookup name' = some id' →
    toUint32 id = toUint32 id' → name = name'

/-- A record names the provider of its service: the platform, or a component by its id. -/
def ServiceRecord.Names (r : ServiceRecord) (compIds : AList fun _ : String => ℤ) :
    Option String → Prop
  | none => r.type = "embedded"
  | some compName => r.type = "remote" ∧ ∃ id, compIds.lookup compName = some id ∧
      r.toManifest.serviceDef.providerCompId = toUint32 id

/-- What the id of a service in a message selects by the records. -/
def Selects (svcMap : AList fun _ : String => ServiceRecord) (compIds : AList fun _ : String => ℤ)
    (serviceId : ℕ) (provider : Option String) : Prop :=
  ∃ svcName r, svcMap.lookup svcName = some r ∧ r.toManifest.serviceDef.serviceId = serviceId ∧
    r.Names compIds provider

namespace ConfData

def ProvidedBy (data : ConfData) (svcName : String) : Option String → Prop
  | none => svcName ∈ data.platform.map ConfService.name
  | some compName => ∃ comp ∈ data.providers svcName, comp.name = compName

/-- The law of identifiers, for what the generator makes of a configuration. -/
structure UnambiguousIn (data : ConfData) (svcMap : AList fun _ : String => ServiceRecord)
    (compIds svcIds : AList fun _ : String => ℤ) : Prop where
  distinctComps : DistinctIds compIds
  distinctSvcs : DistinctIds svcIds
  oneProvider : ∀ svcName p p', data.ProvidedBy svcName p → data.ProvidedBy svcName p' → p = p'
  selects : ∀ svcName p id, data.ProvidedBy svcName p → svcIds.lookup svcName = some id →
    ∀ q, Selects svcMap compIds (toUint32 id) q ↔ q = p
  macros :
    let items := headerItems (dictItems compIds (data.components.map ConfComponent.name))
      (dictItems svcIds (data.services.map ConfService.name))
    ∀ e ∈ items, ∀ e' ∈ items, toCMacro e.1 = toCMacro e'.1 → e.1 = e'.1

def Unambiguous (data : ConfData) (order : SetOrder) : Prop :=
  ∀ svcMap out, data.globalSvcMap = some svcMap → data.validateAndResolve order = some out →
    data.UnambiguousIn svcMap out.2.1 out.2.2

/-- The entry of a service that is not overwritten: the last one of its name. -/
def lastService (data : ConfData) (svcName : String) : Option ConfService :=
  (data.services.filter (·.name = svcName)).getLast?

def names (data : ConfData) : List String :=
  data.components.map ConfComponent.name ++ data.services.map ConfService.name

/-- The condition on a configuration: the ids of the entries that are not overwritten differ as
`uint32_t`, the entries that provide a service are of one component and not of the platform too, the
last of them has the id of that component, and no macro fails to tell two names apart. -/
structure DistinctIdentifiers (data : ConfData) : Prop where
  compIds : ∀ name name' comp comp', data.lastEntry name = some comp →
    data.lastEntry name' = some comp' → comp.id.map toUint32 = comp'.id.map toUint32 → name = name'
  svcIds : ∀ name name' svc svc', data.lastService name = some svc →
    data.lastService name' = some svc' → toUint32 svc.id = toUint32 svc'.id → name = name'
  platform : ∀ svc ∈ data.platform, data.providers svc.name = []
  sameName : ∀ svcName, ∀ comp ∈ data.providers svcName, ∀ comp' ∈ data.providers svcName,
    comp.name = comp'.name
  lastId : ∀ svcName last comp, (data.providers svcName).getLast? = some last →
    data.lastEntry last.name = some comp → last.id.map toUint32 = comp.id.map toUint32
  macros : ∀ name ∈ data.names, ∀ name' ∈ data.names,
    List.Forall₂ SameMacroChar name.toList name'.toList → name = name'

variable {data : ConfData} {order : SetOrder} {svcMap : AList fun _ : String => ServiceRecord}
  {ids : AList fun _ : String => ℤ}

theorem lookup_compIds (h : data.compIds = some ids) (compName : String) :
    ids.lookup compName = (data.lastEntry compName).bind ConfComponent.id := by
  obtain ⟨entries, hentries, rfl⟩ := Option.map_eq_some_iff.mp h
  exact lookup_dictOf_mapM_eq hentries compName

theorem lookup_svcNameToId (data : ConfData) (svcName : String) :
    data.svcNameToId.lookup svcName = (data.lastService svcName).map ConfService.id := by
  rw [svcNameToId, lookup_dictOf_eq_getLast?, List.filter_map, List.getLast?_map, Option.map_map]
  rfl

theorem lookup_svcNameToId_eq_record (h : data.globalSvcMap = some svcMap) (svcName : String) :
    data.svcNameToId.lookup svcName = (svcMap.lookup svcName).map ServiceRecord.id := by
  obtain ⟨nodeToUds, -, h⟩ := Option.bind_eq_some_iff.mp h
  obtain ⟨records, hrecords, h⟩ := Option.bind_eq_some_iff.mp h
  obtain rfl := Option.some.inj h
  have hids : records.map (fun r => (r.name, r.id)) =
      (data.components.flatMap ConfComponent.provides).map fun svc => (svc.name, svc.id) := by
    have hpairs : (data.components.flatMap fun comp => comp.provides.map (comp, ·)).map Prod.snd =
        data.components.flatMap ConfComponent.provides := by
      rw [List.map_flatMap]
      simp [Function.comp_def]
    rw [← hpairs, List.map_map, ← List.forall₂_eq_eq_eq, List.forall₂_map_left_iff,
      List.forall₂_map_right_iff]
    refine (forall₂_of_mapM hrecords).flip.imp fun r p hrecord => ?_
    obtain ⟨id, -, rfl⟩ := Option.map_eq_some_iff.mp hrecord
    rfl
  rw [← lookup_dictOf_map, svcNameToId, services, List.map_append, ← hids, List.map_map,
    List.map_append, List.map_map]
  rfl

/-- A component of the configuration has an entry that is not overwritten. -/
theorem exists_lastEntry {comp : ConfComponent} (hcomp : comp ∈ data.components) :
    ∃ last, data.lastEntry comp.name = some last := by
  refine Option.ne_none_iff_exists'.mp fun h => ?_
  have hkeep := List.filter_eq_nil_iff.mp (List.getLast?_eq_none_iff.mp h) comp hcomp
  exact hkeep (decide_eq_true rfl)

theorem exists_id (h : data.compIds = some ids) {comp : ConfComponent}
    (hcomp : comp ∈ data.components) : ∃ id, comp.id = some id := by
  obtain ⟨entries, hentries, -⟩ := Option.map_eq_some_iff.mp h
  obtain ⟨e, -, he⟩ := mem_mapM_of_mem hentries hcomp
  obtain ⟨id, hid, -⟩ := Option.map_eq_some_iff.mp he
  exact ⟨id, hid⟩

theorem distinctIds_compIds (h : data.compIds = some ids) :
    DistinctIds ids ↔ ∀ name name' comp comp', data.lastEntry name = some comp →
      data.lastEntry name' = some comp' → comp.id.map toUint32 = comp'.id.map toUint32 →
        name = name' := by
  constructor
  · intro hdistinct name name' comp comp' hcomp hcomp' heq
    obtain ⟨id, hid⟩ := exists_id h (lastEntry_name hcomp).1
    obtain ⟨id', hid'⟩ := exists_id h (lastEntry_name hcomp').1
    rw [hid, hid'] at heq
    refine hdistinct name name' id id' ?_ ?_ (Option.some.inj heq)
    · rw [lookup_compIds h, hcomp, Option.bind_some, hid]
    · rw [lookup_compIds h, hcomp', Option.bind_some, hid']
  · intro hdistinct name name' id id' hid hid' heq
    rw [lookup_compIds h] at hid hid'
    obtain ⟨comp, hcomp, hid⟩ := Option.bind_eq_some_iff.mp hid
    obtain ⟨comp', hcomp', hid'⟩ := Option.bind_eq_some_iff.mp hid'
    refine hdistinct name name' comp comp' hcomp hcomp' ?_
    rw [hid, hid', Option.map_some, heq]
    rfl

theorem distinctIds_svcNameToId (data : ConfData) :
    DistinctIds data.svcNameToId ↔ ∀ name name' svc svc', data.lastService name = some svc →
      data.lastService name' = some svc' → toUint32 svc.id = toUint32 svc'.id → name = name' := by
  constructor
  · intro hdistinct name name' svc svc' hsvc hsvc' heq
    exact hdistinct name name' svc.id svc'.id (by rw [lookup_svcNameToId, hsvc, Option.map_some])
      (by rw [lookup_svcNameToId, hsvc', Option.map_some]) heq
  · intro hdistinct name name' id id' hid hid' heq
    rw [lookup_svcNameToId] at hid hid'
    obtain ⟨svc, hsvc, rfl⟩ := Option.map_eq_some_iff.mp hid
    obtain ⟨svc', hsvc', rfl⟩ := Option.map_eq_some_iff.mp hid'
    exact hdistinct name name' svc svc' hsvc hsvc' heq

theorem mem_headerItems (h : data.compIds = some ids) {name : String} :
    (∃ id, (name, id) ∈ headerItems (dictItems ids (data.components.map ConfComponent.name))
      (dictItems data.svcNameToId (data.services.map ConfService.name))) ↔ name ∈ data.names := by
  simp only [headerItems, sortedById, List.mem_append, List.mem_mergeSort, mem_dictItems, names,
    exists_or, exists_and_left]
  refine or_congr (and_iff_left_of_imp fun hname => ?_) (and_iff_left_of_imp fun hname => ?_)
  · obtain ⟨comp, hcomp, rfl⟩ := List.mem_map.mp hname
    obtain ⟨last, hlast⟩ := exists_lastEntry hcomp
    obtain ⟨id, hid⟩ := exists_id h (lastEntry_name hlast).1
    exact ⟨id, by rw [lookup_compIds h, hlast, Option.bind_some, hid]⟩
  · obtain ⟨svc, hsvc, rfl⟩ := List.mem_map.mp hname
    exact exists_lookup_dictOf (List.mem_map_of_mem hsvc)

theorem oneProvider_iff :
    (∀ svcName p p', data.ProvidedBy svcName p → data.ProvidedBy svcName p' → p = p') ↔
      (∀ svc ∈ data.platform, data.providers svc.name = []) ∧
      ∀ svcName, ∀ comp ∈ data.providers svcName, ∀ comp' ∈ data.providers svcName,
        comp.name = comp'.name := by
  constructor
  · intro h
    constructor
    · intro svc hsvc
      refine List.eq_nil_iff_forall_not_mem.mpr fun comp hcomp => ?_
      have hp := h svc.name none (some comp.name) (List.mem_map_of_mem hsvc) ⟨comp, hcomp, rfl⟩
      cases hp
    · intro svcName comp hcomp comp' hcomp'
      exact Option.some.inj
        (h svcName (some comp.name) (some comp'.name) ⟨comp, hcomp, rfl⟩ ⟨comp', hcomp', rfl⟩)
  · rintro ⟨hplatform, hcomps⟩ svcName p p' hp hp'
    have hnot : svcName ∈ data.platform.map ConfService.name → data.providers svcName = [] := by
      intro hmem
      obtain ⟨svc, hsvc, rfl⟩ := List.mem_map.mp hmem
      exact hplatform svc hsvc
    cases p with
    | none =>
      cases p' with
      | none => rfl
      | some compName' =>
        obtain ⟨comp', hcomp', -⟩ := hp'
        exact absurd (hnot hp) (List.ne_nil_of_mem hcomp')
    | some compName =>
      obtain ⟨comp, hcomp, rfl⟩ := hp
      cases p' with
      | none => exact absurd (hnot hp') (List.ne_nil_of_mem hcomp)
      | some compName' =>
        obtain ⟨comp', hcomp', rfl⟩ := hp'
        rw [hcomps svcName comp hcomp comp' hcomp']

/-- Where the ids of the services differ, what an id selects is what the record of its service
names. -/
theorem selects_iff (h : data.globalSvcMap = some svcMap) (hsvcs : DistinctIds data.svcNameToId)
    {svcName : String} {r : ServiceRecord} (hr : svcMap.lookup svcName = some r)
    {q : Option String} : Selects svcMap ids (toUint32 r.id) q ↔ r.Names ids q := by
  refine ⟨?_, fun hq => ⟨svcName, r, hr, rfl, hq⟩⟩
  rintro ⟨svcName', r', hr', hid, hq⟩
  obtain rfl : svcName' = svcName := by
    refine hsvcs svcName' svcName r'.id r.id ?_ ?_ hid
    · rw [lookup_svcNameToId_eq_record h, hr', Option.map_some]
    · rw [lookup_svcNameToId_eq_record h, hr, Option.map_some]
  rw [hr] at hr'
  obtain rfl := Option.some.inj hr'
  exact hq

/-- The record of a component's service names the component if and only if it has the id of the
entry that is not overwritten. -/
theorem names_some_iff (h : data.compIds = some ids) {r : ServiceRecord} {last comp : ConfComponent}
    (htype : r.type = "remote") (hid : r.providerId = last.id) (hlast : last ∈ data.components)
    {compName : String} (hcomp : data.lastEntry compName = some comp) :
    r.Names ids (some compName) ↔ last.id.map toUint32 = comp.id.map toUint32 := by
  obtain ⟨providerId, hproviderId⟩ := exists_id h hlast
  obtain ⟨id, hcompId⟩ := exists_id h (lastEntry_name hcomp).1
  have hlookup : ids.lookup compName = some id := by
    rw [lookup_compIds h, hcomp, Option.bind_some, hcompId]
  simp [ServiceRecord.Names, htype, hlookup, ServiceRecord.toManifest, hid, hproviderId, hcompId]

theorem compName_of_names (h : data.compIds = some ids) {r : ServiceRecord} {compName : String}
    (hnames : r.Names ids (some compName)) : ∃ comp, data.lastEntry compName = some comp := by
  obtain ⟨-, id, hid, -⟩ := hnames
  rw [lookup_compIds h] at hid
  obtain ⟨comp, hcomp, -⟩ := Option.bind_eq_some_iff.mp hid
  exact ⟨comp, hcomp⟩

theorem DistinctIdentifiers.names_iff (hdistinct : data.DistinctIdentifiers)
    (hsvcMap : data.globalSvcMap = some svcMap) (hids : data.compIds = some ids) {svcName : String}
    {r : ServiceRecord} (hr : svcMap.lookup svcName = some r) {p : Option String}
    (hp : data.ProvidedBy svcName p) (q : Option String) : r.Names ids q ↔ q = p := by
  have hone := oneProvider_iff.mpr ⟨hdistinct.platform, hdistinct.sameName⟩ svcName p
  rcases lookup_globalSvcMap hsvcMap svcName with
    ⟨last, r', hlast, hr', htype, hid⟩ | ⟨-, ⟨hmem, r', hr', htype⟩ | ⟨-, hnone⟩⟩
  · obtain rfl := Option.some.inj (hr.symm.trans hr')
    have hprovider := List.mem_of_getLast? hlast
    obtain rfl := hone (some last.name) hp ⟨last, hprovider, rfl⟩
    have hcomps := (List.mem_filter.mp hprovider).1
    obtain ⟨comp, hcomp⟩ := exists_lastEntry hcomps
    have hlastId := hdistinct.lastId svcName last comp hlast hcomp
    cases q with
    | none => simp [ServiceRecord.Names, htype]
    | some compName =>
      constructor
      · intro hnames
        obtain ⟨comp', hcomp'⟩ := compName_of_names hids hnames
        have heq := (names_some_iff hids htype hid hcomps hcomp').mp hnames
        rw [hdistinct.compIds compName last.name comp' comp hcomp' hcomp (heq.symm.trans hlastId)]
      · rintro ⟨⟩
        exact (names_some_iff hids htype hid hcomps hcomp).mpr hlastId
  · obtain rfl := Option.some.inj (hr.symm.trans hr')
    obtain rfl := hone none hp hmem
    cases q with
    | none => simp [ServiceRecord.Names, htype]
    | some compName => simp [ServiceRecord.Names, htype]
  · rw [hr] at hnone
    cases hnone

/-- The identifiers of a configuration that the generator accepts are unambiguous if and only if
it meets the condition. -/
theorem unambiguous_iff {ms : List NodeManifest} (haccepted : data.genManifest order = some ms) :
    data.Unambiguous order ↔ data.DistinctIdentifiers := by
  obtain ⟨out, hout, -⟩ := Option.bind_eq_some_iff.mp haccepted
  obtain ⟨svcMap, hsvcMap, -, hids, hsvcIds⟩ := validateAndResolve_eq_some hout
  constructor
  · intro h
    have h := h svcMap out hsvcMap hout
    obtain ⟨hplatform, hsameName⟩ := oneProvider_iff.mp h.oneProvider
    refine ⟨(distinctIds_compIds hids).mp h.distinctComps, ?_, hplatform, hsameName, ?_, ?_⟩
    · exact (distinctIds_svcNameToId data).mp (hsvcIds ▸ h.distinctSvcs)
    · intro svcName last comp hlast hcomp
      have hprovider := List.mem_of_getLast? hlast
      rcases lookup_globalSvcMap hsvcMap svcName with
        ⟨last', r, hlast', hr, htype, hid⟩ | ⟨hnone, -⟩
      · rw [hlast] at hlast'
        obtain rfl := Option.some.inj hlast'
        refine (names_some_iff hids htype hid (List.mem_filter.mp hprovider).1 hcomp).mp ?_
        refine (selects_iff hsvcMap (hsvcIds ▸ h.distinctSvcs) hr).mp ?_
        refine (h.selects svcName (some last.name) r.id ⟨last, hprovider, rfl⟩ ?_ _).mpr rfl
        rw [hsvcIds, lookup_svcNameToId_eq_record hsvcMap, hr, Option.map_some]
      · exact absurd hnone (List.ne_nil_of_mem hprovider)
    · intro name hname name' hname' hsame
      have hmacros := h.macros
      rw [hsvcIds] at hmacros
      obtain ⟨id, he⟩ := (mem_headerItems hids).mpr hname
      obtain ⟨id', he'⟩ := (mem_headerItems hids).mpr hname'
      exact hmacros _ he _ he' (toCMacro_eq_iff.mpr hsame)
  · intro h svcMap' out' hsvcMap' hout'
    obtain rfl := Option.some.inj (hsvcMap.symm.trans hsvcMap')
    obtain rfl := Option.some.inj (hout.symm.trans hout')
    have hsvcs := (distinctIds_svcNameToId data).mpr h.svcIds
    refine ⟨(distinctIds_compIds hids).mpr h.compIds, hsvcIds ▸ hsvcs,
      oneProvider_iff.mpr ⟨h.platform, h.sameName⟩, ?_, ?_⟩
    · intro svcName p id hp hid q
      rw [hsvcIds, lookup_svcNameToId_eq_record hsvcMap] at hid
      obtain ⟨r, hr, rfl⟩ := Option.map_eq_some_iff.mp hid
      rw [selects_iff hsvcMap hsvcs hr, h.names_iff hsvcMap hids hr hp q]
    · rw [hsvcIds]
      intro items e he e' he' heq
      have hname := (mem_headerItems hids).mp ⟨e.2, he⟩
      have hname' := (mem_headerItems hids).mp ⟨e'.2, he'⟩
      exact h.macros _ hname _ hname' (toCMacro_eq_iff.mp heq)

end ConfData

/-- A node with two components that have the same id, whose services have the same id too. -/
def equalIds : ConfData where
  nodes := [⟨"A", some "a.sock", none, none, [⟨"W", ["X", "Y"]⟩]⟩]
  components := [⟨"X", some 1, some "M", [⟨"S", 7, none⟩], []⟩,
    ⟨"Y", some 1, some "M", [⟨"T", 7, none⟩], []⟩]
  profiles := []
  models := [⟨"M", "libm.so"⟩]
  platform := []

theorem unambiguous_twoNodes : (twoNodes 7 8).Unambiguous .insertion := by
  have haccepted : (twoNodes 7 8).genManifest .insertion =
      some (((twoNodes 7 8).genManifest .insertion).get rfl) := rfl
  refine (ConfData.unambiguous_iff haccepted).mpr ⟨?_, ?_, by decide, ?_, ?_, ?_⟩
  · intro name name' comp comp' hcomp hcomp' heq
    obtain ⟨hmem, rfl⟩ := ConfData.lastEntry_name hcomp
    obtain ⟨hmem', rfl⟩ := ConfData.lastEntry_name hcomp'
    have hids : ∀ comp ∈ (twoNodes 7 8).components, ∀ comp' ∈ (twoNodes 7 8).components,
        comp.id.map toUint32 = comp'.id.map toUint32 → comp.name = comp'.name := by decide
    exact hids comp hmem comp' hmem' heq
  · intro name name' svc svc' hsvc hsvc' heq
    obtain ⟨hmem, hname⟩ := List.mem_filter.mp (List.mem_of_getLast? hsvc)
    obtain ⟨hmem', hname'⟩ := List.mem_filter.mp (List.mem_of_getLast? hsvc')
    have hids : ∀ svc ∈ (twoNodes 7 8).services, ∀ svc' ∈ (twoNodes 7 8).services,
        toUint32 svc.id = toUint32 svc'.id → svc.name = svc'.name := by decide
    rw [← of_decide_eq_true hname, ← of_decide_eq_true hname', hids svc hmem svc' hmem' heq]
  · intro svcName comp hcomp comp' hcomp'
    obtain ⟨hmem, hname⟩ := List.mem_filter.mp hcomp
    obtain ⟨hmem', hname'⟩ := List.mem_filter.mp hcomp'
    simp only [twoNodes, List.mem_cons, List.not_mem_nil, or_false] at hmem hmem'
    rcases hmem with rfl | rfl <;> rcases hmem' with rfl | rfl <;>
      simp_all
  · intro svcName last comp hlast hcomp
    obtain ⟨hmem, -⟩ := List.mem_filter.mp (List.mem_of_getLast? hlast)
    simp only [twoNodes, List.mem_cons, List.not_mem_nil, or_false] at hmem
    rcases hmem with rfl | rfl <;> obtain rfl := Option.some.inj hcomp <;> rfl
  · intro name hname name' hname' hsame
    have hmacros : ∀ name ∈ (twoNodes 7 8).names, ∀ name' ∈ (twoNodes 7 8).names,
        toCMacro name = toCMacro name' → name = name' := by decide
    exact hmacros name hname name' hname' (toCMacro_eq_iff.mpr hsame)

/-- The generator accepts a configuration in which two components have the same id, as have two
services. -/
theorem not_unambiguous_equalIds : (equalIds.genManifest .insertion).isSome = true ∧
    ¬equalIds.Unambiguous .insertion := by
  refine ⟨rfl, fun h => ?_⟩
  have hdistinct := (h _ _ rfl rfl).distinctComps "X" "Y" 1 1 rfl rfl rfl
  exact absurd hdistinct (by decide)

end GeminiNOS

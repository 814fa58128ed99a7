import Mathlib.Data.List.AList

/-! # The configuration

The data that `gen_manifest.py` reads from the files under `conf/`. A key that a file
may leave out is an optional field; the generator fails where it needs a key that is
not there. A bin of a buffer profile is a dictionary, of which the generator reads the
keys `size` and `count`.
-/

namespace GeminiNOS

/-- A service in `provides`. -/
structure ConfService where
  name : String
  id : ℤ
  type : Option String
  deriving DecidableEq, Repr

/-- A thread of a node, with the names of its components. -/
structure ConfThread where
  name : String
  components : List String
  deriving DecidableEq, Repr

structure ConfNode where
  name : String
  udsPath : Option String
  bufferProfile : Option String
  busyPollCycles : Option ℤ
  threads : List ConfThread
  deriving DecidableEq, Repr

/-- A component, with the names of the services that it requires. -/
structure ConfComponent where
  name : String
  id : Option ℤ
  model : Option String
  provides : List ConfService
  requires : List String
  deriving DecidableEq, Repr

structure ConfModel where
  name : String
  lib : String
  deriving DecidableEq, Repr

abbrev ConfBin := AList fun _ : String => ℤ

structure ConfProfile where
  name : String
  bins : List ConfBin

/-- The data of one file, or of all files; `platform` has the services of the platform. -/
structure ConfData where
  nodes : List ConfNode
  components : List ConfComponent
  profiles : List ConfProfile
  models : List ConfModel
  platform : List ConfService

/-- The generator does not read the type of a service. -/
def ConfService.forGenerator (svc : ConfService) : ConfService := { svc with type := none }

/-- The generator has a default for the buffer profile of a node. -/
def ConfNode.forGenerator (n : ConfNode) : ConfNode :=
  { n with bufferProfile := some (n.bufferProfile.getD "default") }

def ConfComponent.forGenerator (c : ConfComponent) : ConfComponent :=
  { c with provides := c.provides.map ConfService.forGenerator }

def ConfData.forGenerator (data : ConfData) : ConfData where
  nodes := data.nodes.map ConfNode.forGenerator
  components := data.components.map ConfComponent.forGenerator
  profiles := data.profiles
  models := data.models
  platform := data.platform.map ConfService.forGenerator

end GeminiNOS

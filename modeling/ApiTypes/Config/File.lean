import ApiTypes.Config
import ApiTypes.Library

/-!
# Configuration files

* `Config.read` : the settings in a YAML file, with paths taken from its folder;
* `ConfigCache` : the settings that were read, under the paths of their files; `ConfigCache.load`
  reads settings unless they are kept.
-/

namespace ApiTypes

namespace Config

/-- The text of a configuration file, given by its place. -/
def textOf (t : FileTree) (path : String) : Except Fault String :=
  match t.readText path with
  | .ok text => .ok text
  | .error .missing => .error (.config (.notFound path))
  | .error .isFolder => .error (.defect .isDirectory)
  | .error .nameTooLong => .error (.defect .nameTooLong)
  | .error .nulInPath => .error (.defect .nulInPath)
  | .error .notUtf8 => .error (.defect .notUtf8)

/-- The members of a configuration text; the empty text and `null` have none. -/
def parse (text : String) : Except Fault Members :=
  match Yaml.read text.toList with
  | .ok (.map ms) => .ok ms
  | .ok (.atom .null) => .ok []
  | .ok _ => .error (.config .rootNotMapping)
  | .error f =>
    match Library.defectOf f with
    | none => .error (.config .unparsable)
    | some d => .error (.defect d)

/-- The settings in a file. -/
def read (t : FileTree) (environment : Option String) (path : String) : Except Fault Config := do
  let path := (t.place path).path
  ofMembers (Path.parentOf path) environment (← parse (← textOf t path))

end Config

abbrev ConfigCache := Keyed String Config

namespace ConfigCache

/-- The settings that are kept for a file, else those in it, which are then kept. -/
def load (cache : ConfigCache) (t : FileTree) (environment : Option String) (path : String) :
    Except Fault Config × ConfigCache :=
  let key := (t.place path).path
  match Keyed.get? cache key with
  | some config => (.ok config, cache)
  | none =>
    match Config.read t environment path with
    | .ok config => (.ok config, Keyed.put cache key config)
    | .error f => (.error f, cache)

/-- Forgets the settings of a file. -/
def forget (cache : ConfigCache) (t : FileTree) (path : String) : ConfigCache :=
  Keyed.remove cache (t.place path).path

end ConfigCache
end ApiTypes

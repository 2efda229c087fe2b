import ApiTypes.Document.Text
import ApiTypes.Fault
import ApiTypes.Keyed
import ApiTypes.Path
import ApiTypes.Text.Blank

/-!
# Settings of a run

* `Config` : the entry document, the output directory, the suffixes of component names, and whether
  files get a header;
* `Config.ofMembers` : the settings that a mapping gives, with paths taken from a directory;
* `Config.overrides` : the suffixes in the form in which types look them up.
-/

namespace ApiTypes

/-- The settings of a run. Paths are tidy. -/
structure Config where
  input : String
  output : String
  /-- The suffixes of the names of types of components. -/
  suffixes : Keyed String String
  header : Bool
  deriving DecidableEq, Repr, Inhabited

namespace Config

/-- The directory that output goes to if nothing else is said. -/
def defaultOutput : String := "generated"

/-- The variable of the environment that names an output directory. -/
def outputVariable : String := "TYPEGEN_OUTPUT"

/-- The suffixes that are in force if nothing else is said. -/
def defaultSuffixes : Keyed String String :=
  [("responses", "Response"), ("requestBodies", "Body")]

/-- A text that is not blank. -/
def nonBlank (label : String) (v : Option Value) : Except Fault String :=
  match v.bind Value.text? with
  | some s => if Text.isBlankText s then .error (.config (.emptyText label)) else .ok s
  | none => .error (.config (.emptyText label))

/-- Suffixes with those of a mapping set; each is to be a text. -/
def addSuffixes (acc : Keyed String String) : Members → Except Fault (Keyed String String)
  | [] => .ok acc
  | (componentType, suffix) :: rest =>
    match suffix.text? with
    | some s => addSuffixes (acc.put componentType.plain s) rest
    | none => .error (.config (.suffixNotText componentType.plain))

/-- The suffixes that a setting gives. -/
def suffixesOf : Option Value → Except Fault (Keyed String String)
  | none | some (.atom .null) => .ok defaultSuffixes
  | some (.map ms) => addSuffixes defaultSuffixes ms
  | some _ => .error (.config .suffixesNotMapping)

/-- Whether files get a header. -/
def headerOf : Option Value → Except Fault Bool
  | none => .ok true
  | some (.atom (.bool b)) => .ok b
  | some _ => .error (.config .headerNotBool)

/-- The settings that a mapping gives. Paths are taken from a directory; an output directory of the
environment stands before the one of the mapping. -/
def ofMembers (base : String) (environment : Option String) (ms : Members) :
    Except Fault Config := do
  let input ← nonBlank "input" (ms.field? "input")
  let output ← nonBlank "output" ((ms.field? "output").getD (.text defaultOutput))
  let header ← headerOf (ms.field? "header")
  let suffixes ← suffixesOf (ms.field? "suffixes")
  let output := match environment.filter (· ≠ "") with
    | some output => Path.tidy output
    | none => Path.below base output
  return { input := Path.below base input, output, suffixes, header }

/-- The settings for an entry document alone. -/
def ofInput (environment : Option String) (input : String) : Except Fault Config :=
  ofMembers "." environment [(.text "input", .text input)]

def overrides (c : Config) : Value :=
  let suffix := fun (s : String × String) =>
    (Atom.text s.1, Value.map [(.text "suffix", .text s.2)])
  .map [(.text "components", .map (c.suffixes.map suffix))]

end Config
end ApiTypes

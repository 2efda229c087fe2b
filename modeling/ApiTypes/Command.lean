import ApiTypes.Command.Arguments
import ApiTypes.Config.File
import ApiTypes.Emission

/-!
# The command

* `Bundle.load` : the bundle of the documents that a configuration names;
* `Command.generate` : a tree with the files of that bundle;
* `Command.configOf` : the settings that a request makes;
* `Command.run` : how a command ends (`Command.Ending`), and the tree that it leaves.
-/

namespace ApiTypes

def Bundle.load (t : FileTree) (cache : DocumentCache) (config : Config) :
    Except Fault Bundle × DocumentCache :=
  let (gathered, cache) := Library.gather t cache config.input
  (do
    let (target, documents) ← gathered
    Bundle.make config target documents, cache)

namespace Command

/-- What a run has made: what it says at its end, and the paths of its files. -/
structure Result where
  report : String
  written : List String
  deriving DecidableEq, Repr

def generate (t : FileTree) (cache : DocumentCache) (config : Config) :
    Except Fault Result × FileTree × DocumentCache :=
  match Bundle.load t cache config with
  | (.error f, cache) => (.error f, t, cache)
  | (.ok bundle, cache) =>
    let (written, t) := Emission.write t bundle config.output
    (written.map fun paths => ⟨Emission.report bundle config.output paths, paths⟩, t, cache)

/-- A text that is given and not empty. -/
def given (text : Option String) : Option String := text.filter (· ≠ "")

/-- The settings of a request: those of its configuration file with its own input before the file's,
or those for its input alone, with its own output before theirs. -/
def configOf (t : FileTree) (environment : Option String) (r : Request) :
    Except Fault Config := do
  let config ← match given r.config, given r.input with
    | some path, some input => do
      let config ← Config.read t environment path
      pure { config with input := Path.tidy input }
    | some path, none => Config.read t environment path
    | none, some input => Config.ofInput environment input
    | none, none => throw .noInput
  match given r.output with
  | some output => return { config with output := Path.tidy output }
  | none => return config

/-- How a command ends. -/
inductive Ending where
  | finished (r : Result)
  | failed (f : Fault)
  | refused (r : Refusal)
  deriving DecidableEq, Repr

namespace Ending

/-- What the command answers to its caller. -/
def exitCode : Ending → Nat
  | finished _ => 0
  | failed _ => 1
  | refused .help => 0
  | refused .misuse => 2

/-- What the command says. -/
def output : Ending → String
  | finished r => r.report
  | failed _ | refused _ => ""

/-- What the command complains of. -/
def complaint : Ending → String
  | failed f => "typegen: error: " ++ f.message
  | finished _ | refused _ => ""

end Ending

def run (t : FileTree) (environment : Option String) (arguments : List String) :
    Ending × FileTree :=
  match Request.ofArguments arguments with
  | .error r => (.refused r, t)
  | .ok request =>
    match configOf t environment request with
    | .error f => (.failed f, t)
    | .ok config =>
      let (result, t, _) := generate t [] config
      match result with
      | .ok r => (.finished r, t)
      | .error f => (.failed f, t)

end Command
end ApiTypes

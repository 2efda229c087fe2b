import ApiTypes.Bundle
import ApiTypes.FileTree

/-!
# The files of a bundle

* `OutputFile` : a path and the text that goes there;
* `Emission.modelFiles` : a file for each declaration, and one for each folder that exports them;
* `Emission.operationsFile` : the file of the operations, if there are any;
* `Emission.write` : a tree with all of these, and the paths in the order of writing. What was
  written before a failure stays.
-/

namespace ApiTypes

structure OutputFile where
  path : String
  text : String
  deriving DecidableEq, Repr, Inhabited

namespace Emission

/-- The header of the files. -/
def header (b : Bundle) : String := if b.hasHeader then Layout.header b.title b.version else ""

/-- The path of a file in the folder of a document. -/
def modelPath (output folder name : String) : String :=
  Path.below (Path.below (Path.below output Layout.modelFolder) folder) (name ++ ".ts")

/-- The file of a declaration. -/
def declarationFile (b : Bundle) (output folder : String) (d : Declaration) : OutputFile :=
  let imports := Layout.importLines d.imports folder b.folders (some d.name)
  ⟨modelPath output folder d.name, Layout.declarationText (header b) imports d⟩

/-- The files of a document. -/
def volumeFiles (b : Bundle) (output : String) (v : Volume) : List OutputFile :=
  let index := Layout.indexText (header b) (v.declarations.map (·.name))
  v.declarations.map (declarationFile b output v.folder) ++
    if v.declarations.isEmpty then [] else [⟨modelPath output v.folder "index", index⟩]

def modelFiles (b : Bundle) (output : String) : List OutputFile :=
  b.volumes.flatMap (volumeFiles b output)

def operationsFile (b : Bundle) (output : String) : Except Fault (List OutputFile) := do
  if b.operations.isEmpty then return []
  else
    let text ← Layout.operationsText (header b) b.operations b.folders
    return [⟨Path.below output "operations.ts", text⟩]

/-- A tree with some files written, in order, up to one that cannot be. -/
def writeAll (t : FileTree) : List OutputFile → Except Fault Unit × FileTree
  | [] => (.ok (), t)
  | f :: rest =>
    match t.writeText f.path f.text with
    | .ok t => writeAll t rest
    | .error d => (.error (.defect d), t)

def write (t : FileTree) (b : Bundle) (output : String) :
    Except Fault (List String) × FileTree :=
  let models := modelFiles b output
  match writeAll t models with
  | (.error f, t) => (.error f, t)
  | (.ok (), t) =>
    match operationsFile b output with
    | .error f => (.error f, t)
    | .ok files =>
      let (written, t) := writeAll t files
      (written.map fun _ => (models ++ files).map (·.path), t)

/-- What is said of a bundle that was written. -/
def report (b : Bundle) (output : String) (written : List String) : String :=
  "Generated " ++ toString written.length ++ " files in " ++ output ++ " (" ++
    toString b.size ++ " declarations)\n"

end Emission
end ApiTypes

import ApiTypes.Declaration
import ApiTypes.Document.Form
import ApiTypes.Keyed
import ApiTypes.Operation
import ApiTypes.Path

/-!
# The files of a run

* `Layout.header` : the comment that files start with;
* `Layout.folders` : a directory for each document, a different one for each (`Layout.Folders`);
* `Layout.importPath` : the way from a directory to a declaration;
* `Layout.importLines` : the imports of a file, each name once;
* `Layout.declarationText`, `Layout.indexText`, `Layout.operationsText` : the text of the files.
-/

namespace ApiTypes.Layout

/-! ## Header -/

/-- A line of the header, if its value counts as given. -/
def headerLine (label : String) (v : Value) : List String :=
  if v.isTrue then [" * " ++ label ++ v.plain] else []

/-- The comment that files start with: it names the title and the version of the target. -/
def header (title version : Value) : String :=
  Text.join "\n" (["/**", " * Generated by typegen.", " * Do not edit manually."] ++
    headerLine "" title ++ headerLine "OpenAPI spec version: " version ++ [" */"])

/-! ## Directories -/

/-- The directory of the target. -/
def targetFolder : String := "."

/-- The first number from a given one that makes a name which is not used. Among one number more
than there are used names, one does. -/
def freeNumber (used : List String) (name : String) : Nat → Nat → Nat
  | 0, n => n
  | tries + 1, n =>
    if used.contains (name ++ "_" ++ toString n) then freeNumber used name tries (n + 1) else n

/-- A directory that is not used. -/
def freeFolder (used : List String) (name : String) : String :=
  if used.contains name then name ++ "_" ++ toString (freeNumber used name used.length 2) else name

/-- The directories of documents, under their keys. -/
abbrev Folders := Keyed String String

/-- Directories for documents other than the target, after some that have one; `used` are the
directories in use. -/
def foldersFrom (target : String) (done : Folders) (used : List String) :
    List String → Folders
  | [] => done
  | key :: rest =>
    if key = target then foldersFrom target done used rest
    else
      let folder := freeFolder used (Name.folder key)
      foldersFrom target (Keyed.put done key folder) (folder :: used) rest

def folders (target : String) (keys : List String) : Folders :=
  foldersFrom target [(target, targetFolder)] [targetFolder] keys

/-! ## Imports -/

def importPath (source destination name : String) : String :=
  let path := Path.relative (Path.join destination name) source
  if Text.startsWith path "." then path else "./" ++ path

/-- The same for a place that may be no path at all. -/
def importPath? (source destination name : String) : Except Fault String :=
  if Path.join destination name = "" then Form.fail .emptyPath
  else .ok (importPath source destination name)

/-- The directory that declares an import: that of its document, if it has one with a directory. -/
def folderOf (own : String) (dirs : Folders) (i : Import) : String :=
  match i.document.filter (· ≠ "") with
  | some key => (Keyed.get? dirs key).getD own
  | none => own

/-- A name and the path that it is imported from. -/
structure ImportLine where
  name : String
  path : String
  deriving DecidableEq, Repr, Inhabited

/-- The imports of a file in a directory, each name once and without the one declared in it. -/
def importLines (imports : List Import) (own : String) (dirs : Folders)
    (excluded : Option String) : List ImportLine :=
  (firstOfName (·.name) (imports.filter fun i => some i.name ≠ excluded)).map fun i =>
    ⟨i.name, importPath own (folderOf own dirs i) i.name⟩

def ImportLine.render (i : ImportLine) : String :=
  "import \x7b " ++ i.name ++ " \x7d from '" ++ i.path ++ "';\n"

/-! ## Texts -/

/-- The directory under the output directory that declarations go to. -/
def modelFolder : String := "model"

/-- What comes before all else in a file. -/
def headerText (header : String) : String := if header = "" then "" else header ++ "\n\n"

def declarationText (header : String) (imports : List ImportLine) (d : Declaration) : String :=
  headerText header ++ String.join (imports.map ImportLine.render) ++
    (if imports.isEmpty then "" else "\n") ++ d.model.render

def indexText (header : String) (names : List String) : String :=
  headerText header ++ String.join (names.map fun n => "export * from './" ++ n ++ "';\n")

/-- The text of the path parameters of an operation; a name is to be a text. -/
def pathParamsText (params : List (Value × TypeExpr)) : Except Fault String := do
  if params.isEmpty then return "void"
  else
    let texts ← params.mapM fun (name, t) => do
      return Name.member (← Form.text name) ++ ": " ++ t.render ++ "; "
    return "\x7b " ++ String.join texts ++ "\x7d"

/-- The text of a type that may be missing. -/
def typeText (t : Option TypeExpr) : String :=
  match t with
  | some t => if t.render = "" then "void" else t.render
  | none => "void"

/-- The text of the type of a response. -/
def responseText (t : Option TypeExpr) : String := (t.map TypeExpr.render).getD "void"

/-- The text of the interface of an operation. -/
def operationText (op : Operation) : Except Fault String := do
  let pathParams ← pathParamsText op.pathParams
  let comment := Comment.textOf (Comment.make? none none (some op.summary)) false
  return "\n" ++ comment ++ "export interface " ++ op.typeName ++ "Operation \x7b\n" ++
    "  method: '" ++ op.method ++ "';\n" ++
    "  path: '" ++ op.path.plain ++ "';\n" ++
    "  pathParams: " ++ pathParams ++ ";\n" ++
    "  params: " ++ typeText op.params ++ ";\n" ++
    "  body: " ++ typeText op.body ++ ";\n" ++
    "  response: " ++ responseText op.response ++ ";\n\x7d\n"

/-- The imports of the file of operations, which stands above the directory of declarations. -/
def operationImports (operations : List Operation) (dirs : Folders) : List ImportLine :=
  (importLines (operations.flatMap (·.imports)) targetFolder dirs none).map fun i =>
    { i with path := importPath targetFolder modelFolder i.path }

def operationsText (header : String) (operations : List Operation) (dirs : Folders) :
    Except Fault String := do
  let texts ← operations.mapM operationText
  return headerText header ++
    String.join ((operationImports operations dirs).map ImportLine.render) ++ String.join texts

end ApiTypes.Layout

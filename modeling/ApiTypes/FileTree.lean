import ApiTypes.Fault
import ApiTypes.Keyed
import ApiTypes.Path
import ApiTypes.Text.Utf8

/-!
# File trees

* `Place` : where a file or a folder is, as the segments on the way from the root;
* `FileTree` : the files and folders under a root, seen from a working folder; `FileTree.empty`,
  `FileTree.addFile`, `FileTree.remove` make trees;
* `FileTree.walk` : the place that a path leads to;
* `FileTree.readText` : the text of the file at a path, or why there is none (`ReadFailure`);
* `FileTree.writeText` : the tree with a text at a path, and with the folders on the way to it;
* `FileTree.changes` : the files that one tree holds and another does not.

A path is followed as it is written: `..` after a segment goes back only if a folder is there.
-/

namespace ApiTypes

/-- The segments on the way from the root, neither empty nor `.` nor `..`. -/
abbrev Place := List (List Char)

/-- The absolute path of a place. -/
def Place.path (p : Place) : String := String.ofList ('/' :: Path.glue p)

/-- What a file holds. -/
inductive Content where
  | text (s : String)
  /-- Octets that are the UTF-8 of no text. -/
  | binary
  deriving DecidableEq, Repr

/-- What a file of some octets holds. -/
def Content.ofOctets (octets : List UInt8) : Content := (Utf8.decode? octets).elim .binary .text

/-- What is at a place. -/
inductive Entry where
  | file (c : Content)
  | folder
  deriving DecidableEq, Repr

/-- The files and folders under a root, seen from a working folder. -/
structure FileTree where
  entries : Keyed Place Entry
  workingFolder : Place
  deriving Repr

/-- Why no text is read. -/
inductive ReadFailure where
  /-- Nothing is at the path. -/
  | missing
  | isFolder
  | nameTooLong
  | nulInPath
  | notUtf8
  deriving DecidableEq, Repr

namespace FileTree

/-- The most octets that the name of a file or folder may have. -/
def maxNameSize : Nat := 255

def isTooLong (name : List Char) : Bool := maxNameSize < (String.ofList name).utf8ByteSize

def hasNul (cs : List Char) : Bool := cs.contains (Char.ofNat 0)

/-- What is at a place. The root is a folder. -/
def entry? (t : FileTree) (p : Place) : Option Entry :=
  if p = [] then some .folder else t.entries.get? p

/-! ## Paths -/

/-- Where a path starts. -/
def startOf (t : FileTree) (path : List Char) : Place :=
  if Path.isAbsolute path then [] else t.workingFolder

/-- A path from the root, normalized. -/
def absolute (t : FileTree) (path : String) : String := Path.absolute t.workingFolder.path path

/-- The place that a path names, whatever is there. -/
def place (t : FileTree) (path : String) : Place := Path.reduced (t.absolute path).toList

def walk (t : FileTree) (here : Place) : List (List Char) → Except ReadFailure Place
  | [] => .ok here
  | s :: rest =>
    if s = Path.parent then walk t here.dropLast rest
    else if isTooLong s then .error .nameTooLong
    else
      let next := here ++ [s]
      match t.entry? next with
      | some .folder => walk t next rest
      | some (.file _) => if rest = [] then .ok next else .error .missing
      | none => .error .missing

/-! ## Reading -/

/-- A text with every end of a line a line feed. -/
def plainLines : List Char → List Char
  | '\r' :: '\n' :: rest => '\n' :: plainLines rest
  | '\r' :: rest => '\n' :: plainLines rest
  | c :: rest => c :: plainLines rest
  | [] => []

def readText (t : FileTree) (path : String) : Except ReadFailure String := do
  let cs := path.toList
  if hasNul cs then throw .nulInPath
  let p ← t.walk (t.startOf cs) (Path.segments cs)
  match t.entry? p with
  | some (.file (.text s)) => return String.ofList (plainLines s.toList)
  | some (.file .binary) => throw .notUtf8
  | some .folder => throw .isFolder
  | none => throw .missing

/-! ## Writing -/

/-- Sets what is at a place. -/
def put (t : FileTree) (p : Place) (e : Entry) : FileTree :=
  { t with entries := t.entries.put p e }

/-- The tree with a folder at a place, and on the way to it. -/
def addFolders (t : FileTree) (p : Place) : FileTree :=
  (List.range p.length).foldl (fun t n => t.put (p.take (n + 1)) .folder) t

/-- The tree with a file at a place, and folders on the way to it. -/
def addFile (t : FileTree) (p : Place) (c : Content) : FileTree :=
  (t.addFolders p.dropLast).put p (.file c)

/-- A tree without files, seen from a working folder. -/
def empty (workingFolder : Place) : FileTree := addFolders ⟨[], workingFolder⟩ workingFolder

/-- The tree without what is at a place. -/
def remove (t : FileTree) (p : Place) : FileTree :=
  { t with entries := t.entries.remove p }

/-- The tree with the folders on the way along some segments, and the place of the last one. -/
def makeFolders (t : FileTree) (here : Place) :
    List (List Char) → Except Defect (FileTree × Place)
  | [] => .ok (t, here)
  | s :: rest =>
    if s = Path.parent then makeFolders t here.dropLast rest
    else if isTooLong s then .error .nameTooLong
    else
      let next := here ++ [s]
      match t.entry? next with
      | some .folder => makeFolders t next rest
      | some (.file _) => .error (if rest = [] then .fileExists else .notDirectory)
      | none => makeFolders (t.put next .folder) next rest

def writeText (t : FileTree) (path text : String) : Except Defect FileTree := do
  let cs := path.toList
  let segments := Path.segments cs
  let name := segments.getLast?.getD []
  if hasNul cs then throw .nulInPath
  let (t, folder) ← t.makeFolders (t.startOf cs) segments.dropLast
  if isTooLong name then throw .nameTooLong
  let p := folder ++ [name]
  match t.entry? p with
  | some .folder => throw .isDirectory
  | _ => return t.put p (.file (.text text))

/-! ## Comparing -/

def changes (earlier later : FileTree) : List (Place × Content) :=
  later.entries.filterMap fun (p, e) =>
    match e with
    | .file c => if earlier.entry? p = some (.file c) then none else some (p, c)
    | .folder => none

end FileTree
end ApiTypes

import ApiTypes.Context
import ApiTypes.Document.Json
import ApiTypes.Document.Pointer
import ApiTypes.Document.References
import ApiTypes.Document.Yaml
import ApiTypes.FileTree
import ApiTypes.Url

/-!
# Reading documents

* `Library.Formats` : the readers of YAML and of JSON; `Library.ownFormats` : those that are here;
* `Library.read` : the document in a file, in YAML or JSON by the suffix of its name;
* `DocumentCache` : the documents that were read, under their keys; `DocumentCache.load` reads a
  document unless it is kept, `DocumentCache.put` and `DocumentCache.invalidate` keep and drop one;
* `Library.neighbours` : the keys of the files that a document refers to;
* `Library.gather` : a document and all that it refers to, directly or through others, in the order
  in which they are first referred to.

The key of a document is the normalized absolute path of its file.
-/

namespace ApiTypes

abbrev DocumentCache := Registry

namespace Library

/-- The suffixes of the names of YAML files. -/
def yamlSuffixes : List String := [".yaml", ".yml"]

def isYaml (path : String) : Bool :=
  yamlSuffixes.contains (String.ofList ((Path.suffix path).toList.map Char.toLower))

/-- What is wrong with a YAML text that breaks its reader off. -/
def defectOf : Yaml.Failure → Option Defect
  | .malformed => none
  | .badNumber => some .badNumber
  | .tooGreat => some .tooGreat
  | .emptyNumeral => some .emptyNumeral
  | .unknownWord => some .missingMember
  | .notDate => some .notMapping
  | .notText => some .notText
  | .endless => some .endless
  | .untold => some .untold

/-- The readers of the two formats of documents. Each has the value of a text, or what breaks it
off: `none` where it says that the text is none of its format, or has a number that is none.

Of a value, the program that loads documents looks at the root, and for references in mappings and
lists. What a reader makes of octets, sets and the like has none, and can stand as an atom. -/
class Formats where
  yaml : List Char → Except (Option Defect) Value
  json : List Char → Except (Option Defect) Value
  /-- Whether a text stands for one with half a character in it, of which no path can be made. -/
  hasHalf : String → Bool

/-- The readers that are here. Where half a character is written they read the character that
replaces others. -/
instance ownFormats : Formats where
  yaml cs := (Yaml.read cs).mapError fun f => (defectOf f).filter (· ≠ .badNumber)
  json cs := (Json.read cs).elim (.error none) .ok
  hasHalf _ := false

section
variable [Formats]

/-- What the reader of the format of a file makes of a text. -/
def value (path text : String) : Except (Option Defect) Value :=
  if isYaml path then Formats.yaml text.toList else Formats.json text.toList

/-- The value of the text of a file. -/
def parse (path text : String) : Except Fault Value :=
  (value path text).mapError fun d => d.elim (.unparsable path) .defect

/-- The text of the file of a document. -/
def textOf (t : FileTree) (path : String) : Except Fault String :=
  if Formats.hasHalf path then .error (.defect .halfInPath)
  else
    match t.readText path with
    | .ok text => .ok text
    | .error .nulInPath => .error (.defect .nulInPath)
    | .error .notUtf8 => .error (.defect .notUtf8)
    | .error .missing | .error .isFolder | .error .nameTooLong => .error (.unreadable path)

/-- The document in a file: a mapping, the empty one for `null`. -/
def read (t : FileTree) (path : String) : Except Fault Value := do
  let path := Path.tidy path
  match ← parse path (← textOf t path) with
  | .atom .null => return .map []
  | .map ms => return .map ms
  | _ => throw (.rootNotMapping path)

end

end Library

namespace DocumentCache

def put (cache : DocumentCache) (key : String) (document : Value) : DocumentCache :=
  Keyed.put cache key document

/-- Drops the document of a key, or all documents if no key is given. -/
def invalidate (cache : DocumentCache) : Option String → DocumentCache
  | some key => Keyed.remove cache key
  | none => []

/-- The document that is kept under the key of a path, else the one in the file, which is then
kept. -/
def load [Library.Formats] (cache : DocumentCache) (t : FileTree) (path : String) :
    Except Fault Value × DocumentCache :=
  let key := t.absolute path
  match Registry.document? cache key with
  | some document => (.ok document, cache)
  | none =>
    match Library.read t key with
    | .ok document => (.ok document, Keyed.put cache key document)
    | .error f => (.error f, cache)

end DocumentCache

namespace Library

/-- The key of the file that a reference in a document names; none for a reference within the
document and for a web address. -/
def neighbour? (t : FileTree) (key ref : String) : Option String :=
  let file := (Pointer.split ref).1
  if file = "" ∨ Url.isWeb file then none
  else some (t.absolute (Path.join (Path.directory key) file))

def neighbours (t : FileTree) (key : String) (document : Value) : List String :=
  document.refs.filterMap (neighbour? t key)

/-- A queue with the keys added that are neither in it nor done. -/
def enqueue (done queue : List String) : List String → List String
  | [] => queue
  | key :: rest =>
    if done.contains key || queue.contains key then enqueue done queue rest
    else enqueue done (queue ++ [key]) rest

/-- Loads the documents of a queue and what they refer to, after those that are loaded. -/
def gatherFrom [Formats] (t : FileTree) :
    Nat → DocumentCache → Registry → List String → Except Fault Registry × DocumentCache
  | 0, cache, loaded, _ => (.ok loaded, cache)
  | _, cache, loaded, [] => (.ok loaded, cache)
  | fuel + 1, cache, loaded, key :: queue =>
    match DocumentCache.load cache t key with
    | (.error f, cache) => (.error f, cache)
    | (.ok document, cache) =>
      let loaded := loaded ++ [(key, document)]
      gatherFrom t fuel cache loaded
        (enqueue (loaded.map Prod.fst) queue (neighbours t key document))

/-- The key of a document, and the document with all that it refers to, under their keys. A key is
loaded once, and what can be loaded is kept already or is a file, which has at most two keys, with
one slash at the start and with two; this bounds the steps. -/
def gather [Formats] (t : FileTree) (cache : DocumentCache) (path : String) :
    Except Fault (String × Registry) × DocumentCache :=
  let target := t.absolute path
  let (loaded, cache) :=
    gatherFrom t (2 * t.entries.length + cache.length + 2) cache [] [target]
  (loaded.map fun registry => (target, registry), cache)

end Library
end ApiTypes

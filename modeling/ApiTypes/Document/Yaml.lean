import ApiTypes.Document.Yaml.Date
import ApiTypes.Document.Yaml.Node

/-!
# YAML documents

* `Yaml.Type` : the types of scalars, and `Yaml.typeOfPlain` : the type that a plain text says;
* `Yaml.atom` : the value of a scalar of a type; `Yaml.scalarText` : the text that it is read from;
* `Yaml.value` : the value of a node;
* `Yaml.read` : the value of a text, `null` for a text without a document.

The members of mappings that a mapping takes over stand before its own; of members of one key the
last counts, at the place of the first. Of several mappings that are taken over in one list the
first counts.
-/

namespace ApiTypes.Yaml

/-! ## Scalars -/

/-- The types of scalars. -/
inductive ScalarType where
  | bool | float | int
  /-- The key under which mappings are taken over. -/
  | merge
  | null | date
  /-- The key of the value that stands for a mapping. -/
  | default
  | text
  deriving DecidableEq, Repr

/-- The words that are flags, in lower case. -/
def flagWords : List (String × Bool) :=
  [("yes", true), ("no", false), ("true", true), ("false", false), ("on", true), ("off", false)]

/-- A word in lower case, if it is in lower case, in upper case, or has one capital in front. -/
def uniformCase? (cs : List Char) : Option (List Char) :=
  let small := cs.map Char.toLower
  let capital := match small with
    | c :: rest => c.toUpper :: rest
    | [] => []
  if cs = small ∨ cs = capital ∨ cs = cs.map Char.toUpper then some small else none

/-- Whether a plain text is one of some words, in uniform case. -/
def isWord (words : List String) (cs : List Char) : Bool :=
  (uniformCase? cs).any fun small => words.contains (String.ofList small)

/-- The type that a plain text says. -/
def typeOfPlain (cs : List Char) : ScalarType :=
  if isWord (flagWords.map Prod.fst) cs then .bool
  else if isFloat cs then .float
  else if isInteger cs then .int
  else if cs = ['<', '<'] then .merge
  else if cs.isEmpty || cs = ['~'] || isWord ["null"] cs then .null
  else if isDate cs then .date
  else if cs = ['='] then .default
  else .text

/-- The types that tags name. -/
def taggedTypes : List (String × ScalarType) :=
  [("bool", .bool), ("float", .float), ("int", .int), ("merge", .merge), ("null", .null),
   ("timestamp", .date), ("value", .default), ("str", .text)]

/-- The type of scalars that a tag names. -/
def taggedType? (tag : String) : Option ScalarType :=
  (taggedTypes.find? fun x => Reader.standardStart ++ x.1 = tag).map Prod.snd

/-- The names of the tags for values that are not told here. -/
def untoldTags : List String := ["binary", "set", "omap", "pairs"]

/-- What is wrong with a tag that has no type: its values are not told, or it has none. -/
def tagFailure (tag : String) : Failure :=
  if untoldTags.any fun t => Reader.standardStart ++ t = tag then .untold else .malformed

/-- The type of a scalar. -/
def typeOf (tag : Option String) (isPlain : Bool) (text : String) : Except Failure ScalarType :=
  match tag with
  | some t => (taggedType? t).elim (.error (tagFailure t)) .ok
  | none => .ok (if isPlain then typeOfPlain text.toList else .text)

def atom (type : ScalarType) (text : String) : Except Failure Atom :=
  let cs := text.toList
  match type with
  | .bool =>
    match flagWords.find? fun w => w.1 = String.ofList (cs.map Char.toLower) with
    | some (_, b) => .ok (.bool b)
    | none => .error .unknownWord
  | .float => (float cs).map .float
  | .int => (integer cs).map .int
  | .null => .ok .null
  | .date => date cs
  | .text => .ok (.text text)
  | .merge | .default => .error .malformed

/-! ## Nodes -/

/-- Whether a node with a tag is of the type that its form has without one. -/
def isOfForm (form : String) (tag : Option String) : Bool :=
  tag.all (· = Reader.standardStart ++ form)

/-- Whether a node is the key under which mappings are taken over. -/
def isMerge : Node → Bool
  | .scalar tag isPlain text =>
    match typeOf tag isPlain text with
    | .ok .merge => true
    | _ => false
  | _ => false

/-- The value of a scalar node. -/
def scalarValue (tag : Option String) (isPlain : Bool) (text : String) : Except Failure Atom := do
  atom (← typeOf tag isPlain text) text

/-- Whether a node is the key of the value that stands for a mapping. -/
def isDefault : Node → Bool
  | .scalar tag isPlain text =>
    match typeOf tag isPlain text with
    | .ok .default => true
    | _ => false
  | .sequence tag _ | .mapping tag _ => tag.bind taggedType? = some .default

mutual

/-- The text of a node with the tag of a scalar: that of a mapping is under its key `=`. -/
def scalarText : Node → Except Failure String
  | .scalar _ _ text => .ok text
  | .sequence .. => .error .malformed
  | .mapping _ pairs => defaultText pairs

def defaultText : List (Node × Node) → Except Failure String
  | [] => .error .malformed
  | (k, v) :: rest => if isDefault k then scalarText v else defaultText rest

end

/-- The value of a mapping with the tag of a scalar. A date is looked for in the mapping itself. -/
def taggedMapping (tag : String) (pairs : List (Node × Node)) : Except Failure Atom :=
  match taggedType? tag with
  | none => .error (tagFailure tag)
  | some .date => do
    let _ ← defaultText pairs
    .error .notText
  | some type => do atom type (← defaultText pairs)

/-- The value of a node that is a key: one without parts. -/
def keyValue : Node → Except Failure Atom
  | .scalar tag isPlain text => do
    match ← typeOf tag isPlain text with
    | .default => return .text text
    | type => atom type text
  | .sequence .. => .error .malformed
  | .mapping none _ => .error .malformed
  | .mapping (some tag) pairs =>
    if taggedType? tag = some .default then (defaultText pairs).map .text
    else taggedMapping tag pairs

mutual

def value : Node → Except Failure Value
  | .scalar tag isPlain text => (scalarValue tag isPlain text).map .atom
  | .sequence tag items =>
    if isOfForm "seq" tag then (values items).map .list
    else .error (tag.elim .malformed tagFailure)
  | .mapping tag pairs =>
    if isOfForm "map" tag then do
      let (taken, own) ← members pairs
      return .map (Members.ofList (taken ++ own))
    else (tag.elim (.error .malformed) (taggedMapping · pairs)).map .atom

def values : List Node → Except Failure (List Value)
  | [] => .ok []
  | n :: rest => do return (← value n) :: (← values rest)

/-- The members that a mapping takes over, and its own. -/
def members : List (Node × Node) →
    Except Failure (List (Atom × Value) × List (Atom × Value))
  | [] => .ok ([], [])
  | (k, v) :: rest =>
    if isMerge k then do
      let more ← taken v
      let (taken, own) ← members rest
      return (more ++ taken, own)
    else do
      let key ← keyValue k
      let w ← value v
      let (taken, own) ← members rest
      return (taken, (key, w) :: own)

/-- The members of a mapping, or of a list of mappings from the last to the first. -/
def taken : Node → Except Failure (List (Atom × Value))
  | .mapping _ pairs => do
    let (more, own) ← members pairs
    return more ++ own
  | .sequence _ items => takenFrom items
  | .scalar .. => .error .malformed

/-- The members of mappings, the last one first. -/
def takenFrom : List Node → Except Failure (List (Atom × Value))
  | [] => .ok []
  | n :: rest => do
    let first ← takenOne n
    return (← takenFrom rest) ++ first

/-- The members of a mapping. -/
def takenOne : Node → Except Failure (List (Atom × Value))
  | .mapping _ pairs => do
    let (more, own) ← members pairs
    return more ++ own
  | .sequence .. | .scalar .. => .error .malformed

end

/-- The value of a text. -/
def read (cs : List Char) : Except Failure Value := do
  match ← document? cs with
  | some n => value n
  | none => return .null

end ApiTypes.Yaml

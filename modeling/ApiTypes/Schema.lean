import ApiTypes.Declaration

/-!
# Schemas

* `Keyword` : the words that compose schemas;
* `Schema` : what a schema describes, each part of it a schema again;
* `Schema.ofValue` : the schema that a value is read as. A reference is one whatever else its
  mapping holds; then compositions, arrays, enums and primitives are looked for, in this order, and
  any other mapping describes an object. A value that is no mapping says nothing;
* `Schema.ofObject` : the same for a value that is known to describe an object;
* `Schema.raw` and the readings of it: `typeName?`, `isNullable`, `isReadOnly`, `required`, `enum?`.

A composed schema that has properties of its own is one more part of its composition.
-/

namespace ApiTypes

inductive Keyword where
  | allOf | oneOf | anyOf
  deriving DecidableEq, Repr, Inhabited

namespace Keyword

/-- The order in which compositions are looked for. -/
def order : List Keyword := [allOf, oneOf, anyOf]

def text : Keyword → String
  | allOf => "allOf"
  | oneOf => "oneOf"
  | anyOf => "anyOf"

def ofText? (word : String) : Option Keyword := order.find? (·.text = word)

def operator : Keyword → Operator
  | allOf => .and
  | oneOf | anyOf => .or

/-- The composition of no schemas. -/
def neutral : Keyword → Builtin
  | allOf => .unknown
  | oneOf | anyOf => .never

end Keyword

/-- What a schema describes, with the mapping it was read from. -/
inductive Schema where
  | reference (raw : Members) (ref : String)
  | composition (raw : Members) (keyword : Keyword) (parts : List Schema)
  /-- A list, of any items if none are described. -/
  | array (raw : Members) (items : Option Schema)
  | enum (raw : Members) (values : List Value)
  | primitive (raw : Members)
  /-- An object with properties. -/
  | object (raw : Members) (properties : List (Atom × Schema))
  /-- An object with any keys and values that are described. -/
  | record (raw : Members) (values : Schema)
  /-- An object with any keys and values. -/
  | openRecord (raw : Members)
  /-- A mapping that describes nothing. -/
  | bare (raw : Members)
  /-- A mapping whose type is a value with parts. -/
  | malformed (raw : Members)
  deriving Repr, Inhabited

namespace Schema

/-! ## Readings of a mapping -/

/-- The reference that a mapping is. -/
def refOf? (raw : Members) : Option String := (raw.field? "$ref").bind Value.text?

/-- The items of a composition. -/
def itemsOf? (raw : Members) (keyword : Keyword) : Option (List Value) :=
  (raw.field? keyword.text).bind Value.items?

/-- The composition that a mapping is: the first of the words whose value is a list. -/
def compositionOf? (raw : Members) : Option (Keyword × List Value) :=
  Keyword.order.findSome? fun k => (itemsOf? raw k).map fun items => (k, items)

/-- The type that a mapping names. -/
def typeNameOf? (raw : Members) : Option String := (raw.field? "type").bind Value.text?

/-- The values that a mapping lists. -/
def enumOf? (raw : Members) : Option (List Value) := (raw.field? "enum").bind Value.items?

/-- The properties that a mapping lists. -/
def propertiesOf (raw : Members) : Members :=
  ((raw.field? "properties").bind Value.members?).getD []

/-- The texts among the items of `required`. -/
def requiredOf (raw : Members) : List String :=
  (((raw.field? "required").bind Value.items?).getD []).filterMap Value.text?

/-- The types without parts. -/
def primitiveTypes : List String := ["string", "number", "integer", "boolean", "null"]

/-- Whether the type of a mapping is a value with parts, which is no type. -/
def hasOddType (raw : Members) : Bool :=
  match raw.field? "type" with
  | some (.list _) | some (.map _) => true
  | _ => false

/-! ## Reading schemas -/

/-- What other keys than given ones may have as values. -/
inductive Additional where
  | unsaid
  | anything
  | values (schema : Schema)
  deriving Repr, Inhabited

/-- The members of a mapping that hold schemas. -/
structure Parts where
  compositions : List (Keyword × List Schema)
  items : Option Schema
  properties : List (Atom × Schema)
  additional : Additional
  deriving Repr, Inhabited

/-- No schemas. -/
def Parts.none : Parts := ⟨[], Option.none, [], .unsaid⟩

/-- The parts of the composition with one word, if there is one. -/
def Parts.composition? (p : Parts) (keyword : Keyword) : Option (List Schema) :=
  (p.compositions.find? (·.1 = keyword)).map Prod.snd

/-- The object that a mapping describes: one with properties if it lists some, else one with any
keys if it allows them. -/
def objectOf (raw : Members) (p : Parts) : Schema :=
  if !p.properties.isEmpty then .object raw p.properties
  else match p.additional with
    | .anything => .openRecord raw
    | .values s => .record raw s
    | .unsaid => .bare raw

/-- What a mapping describes that is no reference and no composition. -/
def simpleOf (raw : Members) (p : Parts) : Schema :=
  if typeNameOf? raw = some "array" then .array raw p.items
  else match enumOf? raw with
    | some values => .enum raw values
    | none =>
      if hasOddType raw then .malformed raw
      else if (typeNameOf? raw).any primitiveTypes.contains then .primitive raw
      else objectOf raw p

/-- What a mapping describes that is no reference, if `simple` says what it is without
compositions. Those of the given words are looked for. -/
def composedOf (simple : Members → Parts → Schema) :
    List Keyword → Members → Parts → Schema
  | [], raw, p => simple raw p
  | keyword :: later, raw, p =>
    match p.composition? keyword with
    | some parts =>
      let own := if p.properties.isEmpty then []
        else [composedOf simpleOf later (raw.erase keyword.text) p]
      .composition raw keyword (parts ++ own)
    | none => composedOf simple later raw p

/-- What a mapping describes. -/
def ofParts (simple : Members → Parts → Schema) (raw : Members) (p : Parts) : Schema :=
  match refOf? raw with
  | some ref => .reference raw ref
  | none => composedOf simple Keyword.order raw p

/-- The parts with the composition of one word set. -/
def Parts.withComposition (p : Parts) (keyword : Keyword) (parts : Option (List Schema)) : Parts :=
  let others := p.compositions.filter (·.1 ≠ keyword)
  { p with compositions := (parts.map fun s => (keyword, s)).toList ++ others }

mutual

def ofValue : Value → Schema
  | .map raw => ofParts simpleOf raw (partsOf raw)
  | .list _ | .atom _ => .bare []

/-- The schemas that some values are read as. -/
def ofValues : List Value → List Schema
  | [] => []
  | v :: rest => ofValue v :: ofValues rest

/-- The schemas of the members of a mapping. -/
def ofMembers : List (Atom × Value) → List (Atom × Schema)
  | [] => []
  | (k, v) :: rest => (k, ofValue v) :: ofMembers rest

/-- The schemas of a list. -/
def listOf? : Value → Option (List Schema)
  | .list items => some (ofValues items)
  | .map _ | .atom _ => none

/-- The schemas of the members of a value. -/
def membersOf : Value → List (Atom × Schema)
  | .map ms => ofMembers ms
  | .list _ | .atom _ => []

/-- The schema of a mapping. -/
def mappingOf? : Value → Option Schema
  | .map raw => some (ofParts simpleOf raw (partsOf raw))
  | .list _ | .atom _ => none

/-- What a value says about other keys. -/
def additionalOf : Value → Additional
  | .map raw => .values (ofParts simpleOf raw (partsOf raw))
  | .atom (.bool true) => .anything
  | .list _ | .atom _ => .unsaid

/-- The schemas in the members of a mapping; of members of one key the first counts. -/
def partsOf : List (Atom × Value) → Parts
  | [] => .none
  | (key, v) :: rest =>
    let p := partsOf rest
    match key with
    | .text "allOf" => p.withComposition .allOf (listOf? v)
    | .text "oneOf" => p.withComposition .oneOf (listOf? v)
    | .text "anyOf" => p.withComposition .anyOf (listOf? v)
    | .text "items" => { p with items := mappingOf? v }
    | .text "properties" => { p with properties := membersOf v }
    | .text "additionalProperties" => { p with additional := additionalOf v }
    | _ => p

end

/-- The schema of a value that is known to describe an object: arrays, enums and primitives are not
looked for. -/
def ofObject : Value → Schema
  | .map raw =>
    match ofValue (.map raw) with
    | .malformed raw => .malformed raw
    | _ => ofParts objectOf raw (partsOf raw)
  | .list _ | .atom _ => .bare []

/-! ## Readings of a schema -/

def raw : Schema → Members
  | reference raw _ | composition raw _ _ | array raw _ | enum raw _ | primitive raw
  | object raw _ | record raw _ | openRecord raw | bare raw | malformed raw => raw

def typeName? (s : Schema) : Option String := typeNameOf? s.raw

def isNullable (s : Schema) : Bool := Value.flag s.raw "nullable"

def isReadOnly (s : Schema) : Bool := Value.flag s.raw "readOnly"

def required (s : Schema) : List String := requiredOf s.raw

def enum? (s : Schema) : Option (List Value) := enumOf? s.raw

/-- What a schema says about itself. -/
def comment? (s : Schema) : Option Comment := Comment.ofMembers? s.raw

/-- The kinds of schemas. -/
inductive Kind where
  | reference | composition | object | array | enum | primitive
  deriving DecidableEq, Repr

def Kind.text : Kind → String
  | reference => "reference"
  | composition => "composition"
  | object => "object"
  | array => "array"
  | enum => "enum"
  | primitive => "primitive"

/-- The kind of a schema; one with an odd type has none. -/
def kind? : Schema → Option Kind
  | .reference .. => some .reference
  | .composition .. => some .composition
  | .array .. => some .array
  | .enum .. => some .enum
  | .primitive _ => some .primitive
  | .object .. | .record .. | .openRecord _ | .bare _ => some .object
  | .malformed _ => none

end Schema
end ApiTypes

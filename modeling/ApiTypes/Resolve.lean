import ApiTypes.Reference
import ApiTypes.Timed

/-!
# The types of schemas

* `Resolved` : the type of a schema with the imports and the further declarations that it needs;
* `Resolve.childNames` : names for the members of a declaration;
* `Resolve.hoist` : a type that gets a declaration of its own, where it has a name;
* `Resolve.shape`, `Resolve.value` : the type of a schema, without and with `null` where it is
  allowed. The members of an object are resolved together, the parts of a composition one after
  another;
* `Resolve.slot` : the type of a schema that is a member, an item or a part of another one;
* `Resolve.compose` : the type of a composition.
-/

namespace ApiTypes

structure Resolved where
  type : TypeExpr
  imports : List Import
  declarations : List Declaration
  /-- Whether the schema lists values. -/
  isEnum : Bool
  /-- The type that the schema names, or what it amounts to. -/
  kind : String
  isRef : Bool
  /-- The mapping that the schema was read from; for a reference, the one at its end. -/
  raw : Members
  deriving Repr, Inhabited

namespace Resolved

/-- A type that needs nothing further. -/
def plain (type : TypeExpr) (kind : String) : Resolved :=
  { type, imports := [], declarations := [], isEnum := false, kind, isRef := false, raw := [] }

/-- The type with `null` as one more alternative, unless it is there already. -/
def withNull (r : Resolved) : Resolved :=
  if r.type.render ≠ "null" ∧ !r.type.endsInNull then { r with type := .nullable r.type } else r

/-- The type of a schema that is no reference, with the schema's mapping. -/
def ofSchema (raw : Members) (r : Resolved) : Resolved :=
  let r := if Value.flag raw "nullable" then r.withNull else r
  { r with raw, isRef := false }

end Resolved

namespace Resolve

/-! ## Names of members -/

/-- The first number from a given one whose name is free. Among one number more than there are used
names, one is. -/
def freeNumber (used : List String) (name : String) : Nat → Nat → Nat
  | 0, n => n
  | tries + 1, n =>
    if used.contains (name ++ toString n) then freeNumber used name tries (n + 1) else n

/-- A name that is not used: with the first free number if it needs one. -/
def freeName (used : List String) (name : String) : String :=
  if used.contains name then name ++ toString (freeNumber used name used.length 2) else name

/-- The name of a member of a named declaration; the name of a component schema is avoided. -/
def childName (ctx : Context) (parent : String) (key : Value) : Except Fault String := do
  let name := Name.pascal parent ++ (← Form.pascal key)
  return if ← ctx.isDeclared name then name ++ "Property" else name

/-- Names for members in order, each different from the used ones before it. -/
def childNamesFrom (ctx : Context) (parent : String) (used : List String) :
    List Value → Except Fault (List String)
  | [] => .ok []
  | key :: rest => do
    let name := freeName used (← childName ctx parent key)
    let names ← childNamesFrom ctx parent (if name = "" then used else name :: used) rest
    return name :: names

/-- Names for the members of a declaration, if it has a name. -/
def childNames (ctx : Context) (parent : Option String) (keys : List Value) :
    Except Fault (List (Option String)) :=
  match parent.filter (· ≠ "") with
  | none => .ok (keys.map fun _ => none)
  | some parent => do return (← childNamesFrom ctx parent [] keys).map some

/-! ## Types without parts -/

/-- The types of numbers. -/
def isNumeric (typeName : Option String) : Bool :=
  typeName = some "number" || typeName = some "integer"

/-- The type of a schema that lists values. -/
def enum (raw : Members) (values : List Value) : Resolved :=
  let typeName := Schema.typeNameOf? raw
  let kind := if isNumeric typeName then "number" else (typeName.filter (· ≠ "")).getD "string"
  { Resolved.plain (.literals values) kind with isEnum := true }

/-- The type of a schema without parts. -/
def primitive (raw : Members) : Resolved :=
  let typeName := Schema.typeNameOf? raw
  if isNumeric typeName then .plain (.builtin .number) "number"
  else if typeName = some "boolean" then .plain (.builtin .boolean) "boolean"
  else if typeName = some "null" then .plain (.builtin .null) "null"
  else if (raw.field? "format").bind Value.text? = some "binary" then
    .plain (.builtin .blob) "string"
  else .plain (.builtin .string) "string"

/-- The type of an object that describes nothing. -/
def bare (raw : Members) : Resolved :=
  let type := if Schema.typeNameOf? raw = some "object" then .emptyObject else .builtin .unknown
  { Resolved.plain type "object" with raw }

/-- The type of a reference: the name that it stands for, with what its end says. -/
def reference (ctx : Context) (ref : String) : Except Fault Resolved := do
  let info ← Reference.info ctx ref
  let (raw, _) ← Reference.follow ctx ref
  match Schema.ofValue (.map raw) with
  | .malformed _ => Form.fail .notKey
  | _ =>
    return {
      type := .name info.name
      imports := [⟨info.name, some info.document⟩]
      declarations := []
      isEnum := (Schema.enumOf? raw).isSome
      kind := ((Schema.typeNameOf? raw).filter (· ≠ "")).getD "object"
      isRef := true
      raw }

/-! ## Types made of others -/

/-- A type that stands beside an operator: in parentheses if it holds one of the given operators. -/
def guarded (operators : List Char) (t : TypeExpr) : TypeExpr :=
  if operators.any t.hasChar then .paren t else t

/-- The type of a list. -/
def arrayOf (item : Resolved) : Resolved :=
  { Resolved.plain (.array (guarded ['|', '&'] item.type)) "array" with
    imports := item.imports
    declarations := item.declarations }

/-- The type of an object with any keys. -/
def recordOf (values : Resolved) : Resolved :=
  { Resolved.plain (.record values.type) "object" with
    imports := values.imports
    declarations := values.declarations }

/-- The head of a member of an object type. -/
def memberHead (owner : Members) (key : String) (raw : Members) : MemberHead :=
  { comment := Comment.ofMembers? raw
    isReadOnly := Value.flag owner "readOnly" || Value.flag raw "readOnly"
    key
    isOptional := !(Schema.requiredOf owner).contains key }

/-- The members of an object type; a key is to be a text. -/
def membersOf (owner : Members) :
    List (Atom × Schema) → List Resolved → Except Fault (List (MemberHead × TypeExpr))
  | (key, s) :: properties, r :: types => do
    let key ← Form.text (.atom key)
    let rest ← membersOf owner properties types
    return (memberHead owner key s.raw, r.type) :: rest
  | _, _ => .ok []

/-- The imports of some types, in order. -/
def importsOf (rs : List Resolved) : List Import := rs.flatMap (·.imports)

/-- The declarations of some types, in order. -/
def declarationsOf (rs : List Resolved) : List Declaration := rs.flatMap (·.declarations)

/-- The type of an object whose properties have the given types. -/
def objectOf (owner : Members) (properties : List (Atom × Schema)) (types : List Resolved) :
    Except Fault Resolved := do
  let members ← membersOf owner properties types
  return { Resolved.plain (.object members) "object" with
    imports := importsOf types
    declarations := declarationsOf types
    raw := owner }

/-- A part of the object that lists the values of several enums. -/
def enumPart (r : Resolved) : EnumPart :=
  if r.isRef then .spread r.type.render else .values ((Schema.enumOf? r.raw).getD [])

/-- The values of several enums in one object, as a declaration. -/
def mergedEnum (name : String) (parts : List Resolved) : Resolved :=
  let constant := Name.pascal name
  { Resolved.plain (.valuesOf constant) "object" with
    imports := [.here constant]
    declarations := declarationsOf parts ++
      [⟨constant, .mergedEnum constant (parts.map enumPart), importsOf parts⟩] }

/-- A part of a composition: in an intersection, alternatives stand in parentheses. -/
def operand (keyword : Keyword) (r : Resolved) : TypeExpr :=
  if keyword = .allOf ∧ !r.isRef then guarded ['|'] r.type else r.type

/-- The type of a composition of some types. Enums alone, under a name, become one enum. -/
def combine (keyword : Keyword) (name : Option String) (parts : List Resolved) : Resolved :=
  match parts with
  | [] => .plain (.builtin keyword.neutral) "object"
  | _ =>
    match name with
    | some n =>
      if 1 < parts.length ∧ parts.all (·.isEnum) then mergedEnum n parts
      else joined
    | none => joined
where
  /-- The parts with the operator between them. -/
  joined : Resolved :=
    { Resolved.plain (.join keyword.operator (parts.map (operand keyword))) "object" with
      imports := importsOf parts
      declarations := declarationsOf parts }

/-! ## Declarations of their own -/

/-- A declaration of a type that its slot refers to by name. -/
def declared (name : String) (model : Model) (kind : String) (isRef : Bool) (r : Resolved) :
    Resolved :=
  { type := .name name
    imports := [.here name]
    declarations := r.declarations ++ [⟨name, model, r.imports⟩]
    isEnum := false
    kind
    isRef
    raw := r.raw }

/-- The type of a slot: with a name, object-like types and enums get a declaration; enums that are
part of a composition (`combined`) do not. -/
def hoist (name : Option String) (combined : Bool) (r : Resolved) : Resolved :=
  match name with
  | none => r
  | some n =>
    let comment := Comment.ofMembers? r.raw
    if !r.isEnum && r.kind = "object" && r.type.isCompound then
      let model : Model :=
        if r.type.isObjectLiteral then .interface comment n r.type else .synonym comment n r.type
      declared n model "object" r.isRef r
    else if r.isEnum && !combined && !r.isRef then
      declared n (.enum comment n ((Schema.enumOf? r.raw).getD [])) "enum" false r
    else r

/-- The name of the items of a named list. -/
def itemName (name : Option String) : Option String := name.map (· ++ "Item")

/-- The name of the parts of a named composition. -/
def partName (name : Option String) (keyword : Keyword) : Option String :=
  name.map fun n => Name.pascal n ++ Name.pascal keyword.text

/-- A part's name after some parts with declarations of their own: the second is number 2. -/
def numbered (name : Option String) (count : Nat) : Option String :=
  name.map fun n => if count = 0 then n else n ++ toString (count + 1)

/-- A name that is not empty. -/
def givenName (name : Option String) : Option String := name.filter (· ≠ "")

/-! ## Schemas -/

/-- The type of a schema from the type of its shape: with `null` if the schema says so. A reference
is nothing but what it leads to. -/
def finish (s : Schema) (r : Resolved) : Resolved :=
  match s with
  | .reference .. => r
  | _ => r.ofSchema s.raw

mutual

def shape (ctx : Context) : Schema → Option String → Timed Fault Resolved
  | .reference _ ref, _ => .ofExcept (reference ctx ref)
  | .malformed _, _ => .ofExcept (Form.fail .notKey)
  | .primitive raw, _ => pure (primitive raw)
  | .enum raw values, _ => pure (enum raw values)
  | .bare raw, _ => pure (bare raw)
  | .openRecord raw, _ => pure { Resolved.plain .openRecord "object" with raw }
  | .array _ none, _ => pure (Resolved.plain (.array (.builtin .unknown)) "array")
  | .array _ (some items), name => do
    let r ← shape ctx items (itemName name)
    return arrayOf (hoist (itemName name) false (finish items r))
  | .record raw values, name => do
    let r ← shape ctx values name
    return { recordOf (finish values r) with raw }
  | .object raw properties, name => do
    let names ← Timed.ofExcept (childNames ctx name (properties.map fun p => .atom p.1))
    let types ← Timed.all (members ctx properties names)
    Timed.ofExcept (objectOf raw properties types)
  | .composition _ keyword schemas, name => do
    let types ← parts ctx (partName name keyword) 0 schemas
    return combine keyword name types

/-- The types of the properties of an object, each with its name. -/
def members (ctx : Context) :
    List (Atom × Schema) → List (Option String) → List (Timed Fault Resolved)
  | (_, s) :: properties, name :: names =>
    ((fun r => hoist (givenName name) false (finish s r)) <$> shape ctx s (givenName name)) ::
      members ctx properties names
  | _, _ => []

/-- The types of the parts of a composition, one after another; `count` of those before them have
declarations of their own. -/
def parts (ctx : Context) (name : Option String) (count : Nat) :
    List Schema → Timed Fault (List Resolved)
  | [] => pure []
  | s :: rest => do
    let shaped ← shape ctx s (numbered name count)
    let r := hoist (numbered name count) true (finish s shaped)
    let rs ← parts ctx name (if r.declarations.isEmpty then count else count + 1) rest
    return r :: rs

end

def value (ctx : Context) (s : Schema) (name : Option String) : Timed Fault Resolved :=
  finish s <$> shape ctx s (givenName name)

def slot (ctx : Context) (s : Schema) (name : Option String) (combined : Bool) :
    Timed Fault Resolved :=
  hoist (givenName name) combined <$> value ctx s name

def compose (ctx : Context) (keyword : Keyword) (name : Option String) (schemas : List Schema) :
    Timed Fault Resolved := do
  let types ← parts ctx (partName (givenName name) keyword) 0 schemas
  return combine keyword (givenName name) types

/-- The same with the keyword as a word of a document. -/
def composeBy (ctx : Context) (word : String) (name : Option String) (schemas : List Schema) :
    Timed Fault Resolved :=
  match Keyword.ofText? word with
  | some keyword => compose ctx keyword name schemas
  | none => .ofExcept (.error (.unknownKeyword word))

/-- The type of a schema that is known to describe an object. A reference stands for its name
alone. -/
def object (ctx : Context) (s : Schema) (name : Option String) : Timed Fault Resolved :=
  match s with
  | .reference raw ref => .ofExcept do
    let info ← Reference.info ctx ref
    return { Resolved.plain (.name info.name) "object" with
      imports := [⟨info.name, some info.document⟩], isRef := true, raw }
  | s => shape ctx s (givenName name)

end Resolve
end ApiTypes

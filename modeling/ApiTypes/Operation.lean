import ApiTypes.Components
import ApiTypes.Resolve

/-!
# Operations

* `Parameter` : a parameter with the context that reads its document;
* `Operation` : the types of an operation;
* `Operation.parameters` : the parameters of a path and an operation, each name and place once;
* `Operation.successResponse?` : the response whose type counts;
* `Operation.make` : the types of one operation;
* `Operation.ofTarget` : the operations of the target, by path and method.
-/

namespace ApiTypes

structure Parameter where
  members : Members
  owner : Context
  deriving Repr, Inhabited

/-- The types of an operation. -/
structure Operation where
  name : String
  method : String
  path : Atom
  summary : Value
  pathParams : List (Value × TypeExpr)
  params : Option TypeExpr
  body : Option TypeExpr
  response : Option TypeExpr
  imports : List Import
  declarations : List Declaration
  deriving Repr, Inhabited

namespace Parameter

/-- The place of a parameter; one that says none is part of the query. -/
def place (ms : Members) : Value := (ms.field? "in").getD (.text "query")

/-- Whether the place of a parameter is the one that a word names. -/
def isIn (p : Parameter) (word : String) : Bool := (place p.members).text? = some word

/-- The name of a parameter. -/
def name (p : Parameter) : Value := (p.members.field? "name").getD .null

/-- The schema of a parameter, the empty one if it is no mapping. -/
def schema (p : Parameter) : Schema :=
  match p.members.field? "schema" with
  | some (.map ms) => Schema.ofValue (.map ms)
  | _ => .bare []

/-- The first of two values that counts as given. -/
def firstGiven (a b : Option Value) : Option Value := if a.any Value.isTrue then a else b

/-- What a parameter says about itself, and where it does not, its schema. -/
def comment? (p : Parameter) : Option Comment :=
  let said := fun key => firstGiven (p.members.field? key) (p.schema.raw.field? key)
  Comment.make? (said "description") (said "deprecated") none

end Parameter

namespace Operation

/-- The methods of operations, in the order in which they are looked for. -/
def methods : List String := ["get", "post", "put", "patch", "delete", "head", "options"]

/-! ## Parameters -/

/-- A parameter as written, or what its reference leads to. -/
def deref (ctx : Context) (ms : Members) : Except Fault Parameter :=
  match Schema.refOf? ms with
  | some ref => do
    let (members, owner) ← Reference.follow ctx ref
    return { members, owner }
  | none => .ok { members := ms, owner := ctx }

/-- Parameters under their names and places. -/
abbrev Placed := Keyed (Atom × Atom) Parameter

/-- Whether two names and places are one. -/
def samePlace (a b : Atom × Atom) : Bool := a.1.same b.1 && a.2.same b.2

/-- Adds parameters in order. Values that are no mappings are passed over, and mappings without a
name. -/
def collect (ctx : Context) (acc : Placed) : List Value → Except Fault Placed
  | [] => .ok acc
  | .map ms :: rest => do
    let p ← deref ctx ms
    match p.members.field? "name" with
    | none => collect ctx acc rest
    | some name =>
      let key ← Form.key name
      let place ← Form.key (Parameter.place p.members)
      collect ctx (acc.putBy samePlace (key, place) p) rest
  | _ :: rest => collect ctx acc rest

/-- The parameters of a path item and an operation; the later of one name and place counts, at the
position of the first. -/
def parameters (ctx : Context) (pathItem operation : Members) : Except Fault (List Parameter) := do
  let shared ← Form.optionalRow (pathItem.field? "parameters")
  let own ← Form.optionalRow (operation.field? "parameters")
  return (← collect ctx [] (shared ++ own)).map Prod.snd

/-- The members of the params interface whose types are given; a name is to be a text. -/
def paramMembers : List Parameter → List Resolved → Except Fault (List (MemberHead × TypeExpr))
  | p :: params, r :: types => do
    let key ← Form.text p.name
    let rest ← paramMembers params types
    let head : MemberHead :=
      { comment := p.comment?
        isReadOnly := false
        key
        isOptional := !(Value.flag p.members "required") }
    return (head, r.type) :: rest
  | _, _ => .ok []

/-- The interface of the query parameters, each resolved in its own document. -/
def paramsInterface (ctx : Context) (name : String) (query : List Parameter) :
    Timed Fault Resolved := do
  let names ← Timed.ofExcept (Resolve.childNames ctx (some name) (query.map (·.name)))
  let types ← Timed.all
    ((query.zip names).map fun (p, n) => Resolve.slot p.owner p.schema n false)
  let members ← Timed.ofExcept (paramMembers query types)
  let declaration : Declaration :=
    ⟨name, .interface none name (.object members), Resolve.importsOf types⟩
  return { Resolved.plain (.name name) "object" with
    imports := [.here name]
    declarations := Resolve.declarationsOf types ++ [declaration] }

/-- The same if there are query parameters. -/
def paramsOf (ctx : Context) (name : String) (query : List Parameter) :
    Timed Fault (Option Resolved) :=
  if query.isEmpty then return none else some <$> paramsInterface ctx name query

/-! ## Bodies and responses -/

/-- The codes of success, in the order in which they are looked for. -/
def successCodes : List String := ["200", "201", "202", "203", "204"]

/-- Responses under their codes as text; of one code the last counts. -/
def byCode (responses : Members) : Members :=
  Members.ofList (responses.map fun m => (.text m.1.plain, m.2))

/-- The codes of responses. -/
def codes (responses : Members) : List String := responses.filterMap fun m => m.1.text?

/-- The response whose type counts: that of the first code of success, else of the least code that
starts with a 2, else the default. -/
def successResponse? (responses : Members) : Option Value :=
  let responses := byCode responses
  let others := ((codes responses).filter (Text.startsWith · "2")).mergeSort (· ≤ ·)
  match (successCodes ++ others).findSome? responses.field? with
  | some response => some response
  | none => responses.field? "default"

/-- The type of a request body or a response: the name of its reference, or that of its JSON
schema. -/
def content (ctx : Context) (name : String) (component : Members) :
    Timed Fault (Option Resolved) :=
  match Schema.refOf? component with
  | some ref => do
    let info ← Timed.ofExcept (Reference.info ctx ref)
    return some { Resolved.plain (.name info.name) "object" with
      imports := [⟨info.name, some info.document⟩]
      isRef := true }
  | none => do
    match ← Timed.ofExcept (Components.jsonSchemaOf component) with
    | none => return none
    | some schema =>
      return some (← Resolve.slot ctx (Schema.ofValue (.map schema)) (some name) false)

/-- The same for a value; one that is no mapping has no type. -/
def contentOf (ctx : Context) (name : String) (component : Option Value) :
    Timed Fault (Option Resolved) :=
  match component with
  | some (.map ms) => content ctx name ms
  | _ => return none

/-! ## One operation -/

/-- The types of the path parameters, with their names. -/
def pathParameters : List Parameter → Timed Fault (List (Value × Resolved))
  | [] => return []
  | p :: rest => do
    let schema := Schema.ofValue (Value.orEmpty (p.members.field? "schema"))
    let r ← Resolve.value p.owner schema none
    let rs ← pathParameters rest
    return (p.name, r) :: rs

/-- The name of an operation: that of its id if it has one. -/
def nameOf (method : String) (path : Atom) (id : Option Value) : Except Fault String :=
  match id.filter Value.isTrue with
  | some id => do return Name.camel (← Form.text id)
  | none =>
    match path with
    | .text path => .ok (Name.operation method path)
    | _ => Form.fail .notMapping

/-- A name that no component of the target has. -/
def freeName (claimed : List String) (name : String) : String :=
  if claimed.contains name then name ++ "Property" else name

def make (ctx : Context) (method : String) (path : Atom) (pathItem : Members) (operation : Value) :
    Timed Fault Operation := do
  let operation ← Timed.ofExcept (Form.mapping operation)
  let name ← Timed.ofExcept (nameOf method path (operation.field? "operationId"))
  let typeName := Name.pascal name
  let parameters ← Timed.ofExcept (parameters ctx pathItem operation)
  let pathParams ← pathParameters (parameters.filter (·.isIn "path"))
  let claimed ← Timed.ofExcept (Components.names ctx)
  let params ← paramsOf ctx (freeName claimed (typeName ++ "Params"))
    (parameters.filter (·.isIn "query"))
  let body ← contentOf ctx (freeName claimed (typeName ++ "Body"))
    (operation.field? "requestBody")
  let responses ← Timed.ofExcept (Form.optionalMapping (operation.field? "responses"))
  let response ← contentOf ctx (freeName claimed (typeName ++ "Response"))
    (successResponse? responses)
  let all := pathParams.map Prod.snd ++ params.toList ++ body.toList ++ response.toList
  return {
    name
    method
    path
    summary := ((operation.field? "summary").filter Value.isTrue).getD (.text "")
    pathParams := pathParams.map fun (n, r) => (n, r.type)
    params := params.map (·.type)
    body := body.map (·.type)
    response := response.map (·.type)
    imports := Resolve.importsOf all
    declarations := Resolve.declarationsOf all }

/-- The types of the operation of a path of the target. -/
def find (ctx : Context) (method path : String) : Timed Fault Operation :=
  let written : Except Fault (Members × Value) := do
    let paths ← Form.mapping (← pathsOf (ctx.registry.document ctx.target))
    match Members.field? paths path with
    | none => Form.fail .missingMember
    | some (.map pathItem) =>
      match Members.field? pathItem method with
      | none => Form.fail .missingMember
      | some operation => return (pathItem, operation)
    | some _ => Form.fail .notKeyed
  do
    let (pathItem, operation) ← Timed.ofExcept written
    make ctx method (.text path) pathItem operation

/-- The interface of an operation is named after it. -/
def typeName (op : Operation) : String := Name.pascal op.name

/-! ## All operations -/

/-- An operation of the target as it is written. -/
structure Written where
  method : String
  path : Atom
  pathItem : Members
  operation : Value
  deriving Repr, Inhabited

/-- The operations of a path item. -/
def ofPathItem (path : Atom) : Value → List Written
  | .map pathItem => methods.filterMap fun method =>
      (Members.field? pathItem method).map fun operation => { method, path, pathItem, operation }
  | _ => []

/-- The operations of the target, by path and then by method. -/
def written (ctx : Context) : Except Fault (List Written) := do
  let paths ← Form.mapping (← pathsOf (ctx.registry.document ctx.target))
  let paths ← Form.sorted Prod.fst paths
  return paths.flatMap fun (path, pathItem) => ofPathItem path pathItem

/-- The types of an operation; a reference in it that leads nowhere is reported with its method and
path. -/
def ofWritten (ctx : Context) (w : Written) : Timed Fault Operation :=
  (make ctx w.method w.path w.pathItem w.operation).mapError
    (Fault.within (w.method.toUpper ++ " " ++ w.path.plain))

def ofTarget (ctx : Context) : Timed Fault (List Operation) := do
  let operations ← Timed.ofExcept (written ctx)
  Timed.all (operations.map (ofWritten ctx))

end Operation
end ApiTypes

import ApiTypes.Reference

/-!
# The components of a document

* `Components.jsonSchema?` : the schema of the JSON content of a response or a request body;
* `Components.Entry` : a schema that gets a declaration, with the name and the suffix of it;
* `Components.entries` : the entries of a document: its component schemas, and the JSON schemas of
  its responses and request bodies; without components, its definitions, or the document itself if
  it looks like a schema;
* `Components.names` : the names that the components of a document claim.
-/

namespace ApiTypes.Components

/-! ## JSON content -/

/-- The media type that is looked for first. -/
def json : String := "application/json"

/-- Whether a media type is one of JSON. -/
def isJson (mediaType : String) : Bool :=
  Text.endsWith mediaType "json" || Text.contains mediaType "+json"

/-- The schema of an entry of a content mapping. -/
def entrySchema? (entry : Option Value) : Option Members :=
  (entry.bind fun e => e.field? "schema").bind Value.members?

/-- The first schema under a JSON media type, in the order of the media types given. -/
def firstSchema (content : Members) : List Atom → Except Fault (Option Members)
  | [] => .ok none
  | .text mediaType :: rest =>
    match if isJson mediaType then entrySchema? (content.field? mediaType) else none with
    | some schema => .ok (some schema)
    | none => firstSchema content rest
  | _ :: _ => Form.fail .notMapping

/-- The schema of the JSON content of a response or a request body; a reference is its own. -/
def jsonSchemaOf (component : Members) : Except Fault (Option Members) := do
  if Members.has component "$ref" then return some component
  else
    let content := Value.orEmpty (component.field? "content")
    let mediaTypes ← Form.sortedRow content
    firstSchema (← Form.mapping content) (.text json :: mediaTypes)

/-- The same for a value that is to be a response or a request body. -/
def jsonSchema? (component : Value) : Except Fault (Option Value) := do
  if ← Form.holds component "$ref" then return some component
  else return (← jsonSchemaOf (← Form.mapping component)).map .map

/-! ## Entries -/

structure Entry where
  name : Value
  schema : Value
  suffix : Value
  deriving Repr, Inhabited

/-- The entries of the members of a mapping, if they are schemas. -/
def schemaEntries (ms : Members) : List Entry :=
  ms.map fun m => ⟨.atom m.1, m.2, .text ""⟩

/-- The entries of some responses or request bodies: those with a JSON schema. -/
def contentEntries (suffix : Value) : Members → Except Fault (List Entry)
  | [] => .ok []
  | (name, component) :: rest => do
    let schema ← jsonSchema? component
    let entries ← contentEntries suffix rest
    return (schema.map fun s => Entry.mk (.atom name) s suffix).toList ++ entries

/-- The types of components, other than schemas, that get declarations. -/
def contentTypes : List String := ["responses", "requestBodies"]

/-- The entries of the components of some types. -/
def entriesOfTypes (ctx : Context) (components : Members) :
    List String → Except Fault (List Entry)
  | [] => .ok []
  | componentType :: rest => do
    let suffix ← ctx.suffixFor componentType
    let ms ← Form.optionalMapping (components.field? componentType)
    let entries ← contentEntries suffix ms
    return entries ++ (← entriesOfTypes ctx components rest)

/-- The members of a document that hold schemas if it has no components. -/
def definitionKeys : List String := ["$defs", "definitions"]

/-- The keys that a document which is a schema has one of. -/
def schemaHints : List String :=
  ["type", "properties", "enum", "items", "$ref", "allOf", "oneOf", "anyOf"]

def entries (ctx : Context) : Except Fault (List Entry) := do
  let document ← Form.mapping ctx.document
  match document.field? "components" with
  | some (.map components) =>
    let schemas ← Form.optionalMapping (Members.field? components "schemas")
    return schemaEntries schemas ++ (← entriesOfTypes ctx components contentTypes)
  | _ =>
    let definitions := definitionKeys.flatMap fun key =>
      schemaEntries (((document.field? key).bind Value.members?).getD [])
    if definitions.isEmpty && schemaHints.any (Members.has document) then
      let name ← Reference.documentName (Pointer.split ctx.current).1
      return [⟨.text name, .map document, .text ""⟩]
    else return definitions

/-! ## Names -/

/-- The names of the components of some types. -/
def namesOfTypes (ctx : Context) (components : Members) :
    List String → Except Fault (List String)
  | [] => .ok []
  | componentType :: rest => do
    let suffix ← ctx.suffixFor componentType
    let keys ← Form.optionalRow (components.field? componentType)
    let names ← keys.mapM fun key => do Form.suffixed (← Form.pascal key) suffix
    return names ++ (← namesOfTypes ctx components rest)

def names (ctx : Context) : Except Fault (List String) := do
  let document ← Form.mapping (ctx.registry.document ctx.target)
  let components ← Form.optionalMapping (document.field? "components")
  let schemas ← (← Form.optionalRow (components.field? "schemas")).mapM Form.pascal
  return schemas ++ (← namesOfTypes ctx components contentTypes)

end ApiTypes.Components

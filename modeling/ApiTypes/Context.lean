import ApiTypes.Document.Form
import ApiTypes.Keyed

/-!
# Where types are made

* `Registry` : the loaded documents, each under its key; `Registry.document?` finds one;
* `Context` : a registry, the document whose declarations are made, the document that is being
  read, the name suffixes in force, and the references that are being followed;
* `Context.reading`, `Context.entering` : the context in another document, and one reference deeper;
* `Context.targetSchemas`, `Context.isDeclared`, `Context.suffixFor` : the names that a document
  declares.
-/

namespace ApiTypes

abbrev Registry := Keyed String Value

namespace Registry

/-- The document of a key. One that is `null` is not loaded. -/
def document? (r : Registry) (key : String) : Option Value :=
  (Keyed.get? r key).filter fun v => !(v matches .atom .null)

/-- The document of a key, the empty one if it is not loaded. -/
def document (r : Registry) (key : String) : Value := Value.orEmpty (r.document? key)

end Registry

/-- The component schemas of a document. -/
def schemasOf (document : Value) : Except Fault Value := do
  let ms ← Form.mapping document
  let components ← Form.optionalMapping (ms.field? "components")
  return Value.orEmpty (components.field? "schemas")

/-- The paths of a document. -/
def pathsOf (document : Value) : Except Fault Value := do
  let ms ← Form.mapping document
  return Value.orEmpty (ms.field? "paths")

structure Context where
  registry : Registry
  target : String
  current : String
  overrides : Value
  /-- The documents and pointers of the references that are being followed. -/
  visiting : List (String × String)
  deriving Repr, Inhabited

namespace Context

/-- A context that reads the document whose declarations it makes. -/
def start (registry : Registry) (target : String) (overrides : Value) : Context :=
  { registry, target, current := target, overrides, visiting := [] }

/-- The document that is being read. -/
def document (ctx : Context) : Value := ctx.registry.document ctx.current

/-- The component schemas of the document whose declarations are made. -/
def targetSchemas (ctx : Context) : Except Fault Value :=
  schemasOf (ctx.registry.document ctx.target)

/-- Whether a name is the key of a component schema of the target. -/
def isDeclared (ctx : Context) (name : String) : Except Fault Bool :=
  if name = "" then .ok false
  else do Form.holds (← ctx.targetSchemas) name

def suffixFor (ctx : Context) (componentType : String) : Except Fault Value := do
  let ms ← Form.mapping ctx.overrides
  let components ← Form.optionalMapping (ms.field? "components")
  let component ← Form.optionalMapping (components.field? componentType)
  return (component.field? "suffix").getD (.text "")

def reading (ctx : Context) (key : String) : Context := { ctx with current := key }

def isVisiting (ctx : Context) (key pointer : String) : Bool := ctx.visiting.contains (key, pointer)

def entering (ctx : Context) (key pointer : String) : Context :=
  if ctx.isVisiting key pointer then ctx
  else { ctx with visiting := ctx.visiting ++ [(key, pointer)] }

end Context
end ApiTypes

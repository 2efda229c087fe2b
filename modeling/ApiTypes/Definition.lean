import ApiTypes.Components
import ApiTypes.Resolve

/-!
# The declarations of a document

* `Definition.model` : what is declared for the type of a schema: an enum, a type without members,
  an interface for an object literal, and a synonym for anything else;
* `Definition.ofEntry` : the declarations of one entry, those of its parts before its own;
* `Definition.ofDocument` : the declarations of all entries of a document.
-/

namespace ApiTypes.Definition

def model (name : String) (comment : Option Comment) (r : Resolved) : Model :=
  if r.isEnum && !r.isRef then .enum comment name ((Schema.enumOf? r.raw).getD [])
  else if r.type.render = TypeExpr.emptyObject.render then .empty comment name
  else if r.kind = "object" && r.type.isObjectLiteral then .interface comment name r.type
  else .synonym comment name r.type

/-- The declarations that the type of a schema needs, and its own under the name given. -/
def declarations (name : String) (comment : Option Comment) (r : Resolved) : List Declaration :=
  Declaration.merge (r.declarations ++ [⟨name, model name comment r, r.imports⟩])

/-- The declarations of a schema under a name. -/
def ofSchema (ctx : Context) (name : String) (s : Schema) : Timed Fault (List Declaration) := do
  let r ← (Resolve.value ctx s (some name)).mapError (Fault.within name)
  return declarations name s.comment? r

def ofEntry (ctx : Context) (e : Components.Entry) : Timed Fault (List Declaration) := do
  let name ← Timed.ofExcept (Form.pascal e.name)
  let name ← Timed.ofExcept (Form.suffixed name e.suffix)
  ofSchema ctx name (Schema.ofValue e.schema)

def ofDocument (ctx : Context) : Timed Fault (List Declaration) := do
  let entries ← Timed.ofExcept (Components.entries ctx)
  let results ← Timed.all (entries.map (ofEntry ctx))
  return results.flatten

end ApiTypes.Definition

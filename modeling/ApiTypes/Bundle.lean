import ApiTypes.Config
import ApiTypes.Definition
import ApiTypes.Layout

/-!
# All that a run declares

* `Bundle` : the declarations of every document, the operations of the target, and what the files
  about them say of the target;
* `Bundle.make` : the bundle of some documents. Operations are made first, then the declarations of
  the target, then those of the other documents in the order of their keys.
-/

namespace ApiTypes

/-- The declarations of a document, and the folder that they go to. -/
structure Volume where
  document : String
  folder : String
  declarations : List Declaration
  deriving Repr, Inhabited

structure Bundle where
  target : String
  folders : Layout.Folders
  volumes : List Volume
  operations : List Operation
  title : Value
  version : Value
  hasHeader : Bool
  deriving Repr, Inhabited

namespace Bundle

/-- The number of declarations of all documents. -/
def size (b : Bundle) : Nat := (b.volumes.flatMap (·.declarations)).length

/-- The keys of documents, in order. -/
def keysOf (documents : Registry) : List String := (documents.map Prod.fst).mergeSort (· ≤ ·)

/-- The folder of a document. -/
def folderOf (folders : Layout.Folders) (key : String) : String :=
  (Keyed.get? folders key).getD Layout.targetFolder

/-- The declarations of a document; of one name the first stays. -/
def volume (folders : Layout.Folders) (key : String) (ds : List Declaration) : Volume :=
  ⟨key, folderOf folders key, firstOfName (·.name) ds⟩

/-- What a document says of itself. -/
def information (document : Value) : Except Fault Members := do
  let ms ← Form.mapping document
  Form.optionalMapping (ms.field? "info")

def make (config : Config) (target : String) (documents : Registry) : Except Fault Bundle := do
  let context := fun key => Context.start documents key config.overrides
  let keys := keysOf documents
  let folders := Layout.folders target keys
  let operations ← (Operation.ofTarget (context target)).outcome
  let own ← (Definition.ofDocument (context target)).outcome
  let first := volume folders target (own ++ operations.flatMap (·.declarations))
  let others ← (keys.filter (· ≠ target)).mapM fun key => do
    return volume folders key (← (Definition.ofDocument (context key)).outcome)
  let info ← information (documents.document target)
  return {
    target, folders, volumes := first :: others, operations, hasHeader := config.header
    title := (info.field? "title").getD (.text "")
    version := (info.field? "version").getD (.text "") }

end Bundle
end ApiTypes

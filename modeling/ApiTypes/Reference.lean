import ApiTypes.Context
import ApiTypes.Document.Pointer
import ApiTypes.Document.References
import ApiTypes.Path
import ApiTypes.Schema
import ApiTypes.Url

/-!
# References

* `Reference.documentKey` : the key of the document that a reference names;
* `Reference.locate` : the document, the pointer and the value that a reference leads to;
* `Reference.info` : the declared name of that value;
* `Reference.follow` : the schema at the end of a chain of references, and the context that reads
  its document. A chain that comes back to a reference being followed ends there, unresolved.
-/

namespace ApiTypes.Reference

/-- The key of the document that the first part of a reference names, in the document that is being
read. -/
def documentKey (ctx : Context) (part : String) : Except Fault String :=
  if part = "" then .ok ctx.current
  else if Url.isWeb part then .ok part
  else if Url.isWeb ctx.current then
    match Url.resolve? ctx.current part with
    | some key => .ok key
    | none => Form.fail .badAddress
  else .ok (Path.normalize (Path.join (Path.directory ctx.current) part))

/-- What a reference leads to. -/
structure Located where
  document : String
  pointer : String
  node : Value
  deriving Repr, Inhabited

/-- The failure of a reference in the document that is being read. -/
def unresolved {α : Type} (ctx : Context) (ref : String) (reason : Reason) : Except Fault α :=
  .error (.unresolved
    { ref, document := ctx.current, reason := some reason, declaration := none })

def locate (ctx : Context) (ref : String) : Except Fault Located := do
  let (part, pointer) := Pointer.split ref
  let key ← documentKey ctx part
  match ctx.registry.document? key with
  | none => unresolved ctx ref (.notLoaded key)
  | some document =>
    match Pointer.resolve document pointer with
    | .ok node => return { document := key, pointer, node }
    | .error (.dangling _) => unresolved ctx ref (.noNode pointer)
    | .error .notNumeral => Form.fail .notNumeral

/-! ## Names -/

/-- The name of a document: its last segment without the extension. -/
def documentName (part : String) : Except Fault String := do
  let path ← if Url.isWeb part then
      match Url.pathOf? part with
      | some path => .ok path
      | none => Form.fail .badAddress
    else .ok part
  return Path.stem (String.ofList (path.toList.map fun c => if c = '\\' then '/' else c))

/-- The name that a reference stands for and where it is declared. -/
structure Info where
  name : String
  originalName : String
  document : String
  pointer : String
  tokens : List String
  deriving Repr, Inhabited

/-- What a reference's pointer names: the last of its tokens, or the whole document. -/
def originalName (ref : String) (tokens : List String) : Except Fault String :=
  match tokens.getLast? with
  | none => documentName (Pointer.split ref).1
  | some last => .ok last

/-- The suffix of the names at a pointer: that of its type of components. -/
def suffixOf (ctx : Context) (tokens : List String) : Except Fault Value :=
  match tokens with
  | "components" :: componentType :: _ :: _ => ctx.suffixFor componentType
  | _ => .ok (Value.text "")

/-- The declared name of what a reference leads to: what its pointer names, with the suffix that
names get there. -/
def info (ctx : Context) (ref : String) : Except Fault Info := do
  let located ← locate ctx ref
  let tokens := Pointer.tokens located.pointer
  let original ← originalName ref tokens
  let suffix ← suffixOf ctx tokens
  let name ← Form.suffixed (Name.pascal original) suffix
  return {
    name
    originalName := original
    document := located.document
    pointer := located.pointer
    tokens }

/-! ## Chains -/

/-- A mapping that is a reference. -/
def mappingOf (ref : String) : Members := [(.text "$ref", .text ref)]

/-- The chain of a reference, of at most a number of steps. -/
def followFor : Nat → Context → String → Except Fault (Members × Context)
  | 0, ctx, ref => .ok (mappingOf ref, ctx)
  | steps + 1, ctx, ref => do
    let located ← locate ctx ref
    if ctx.isVisiting located.document located.pointer then return (mappingOf ref, ctx)
    else
      let deeper := (ctx.reading located.document).entering located.document located.pointer
      match located.node with
      | .map ms =>
        match Schema.refOf? ms with
        | some next => followFor steps deeper next
        | none => return (ms, deeper)
      | _ => return ([], deeper)

/-- Each step of a chain enters a document at a pointer where it has not been. The pointers are
that of the first reference and those of the references in the documents. -/
def stepBound (registry : Registry) : Nat :=
  registry.length * ((registry.flatMap fun d => d.2.refs).length + 1) + 1

def follow (ctx : Context) (ref : String) : Except Fault (Members × Context) :=
  followFor (stepBound ctx.registry) ctx ref

end ApiTypes.Reference

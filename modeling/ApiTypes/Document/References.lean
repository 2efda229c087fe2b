import ApiTypes.Document.Basic

/-!
# The references in a document

* `Value.refs` : the texts under `$ref` in all mappings of a value, in the order in which they are
  written, that of a mapping before those in its members.
-/

namespace ApiTypes.Value

/-- The reference that a mapping is. -/
def ownRef (ms : Members) : List String := ((ms.field? "$ref").bind text?).toList

mutual

def refs : Value → List String
  | atom _ => []
  | list items => refsOfItems items
  | map members => ownRef members ++ refsOfMembers members

def refsOfItems : List Value → List String
  | [] => []
  | v :: rest => refs v ++ refsOfItems rest

def refsOfMembers : List (Atom × Value) → List String
  | [] => []
  | (_, v) :: rest => refs v ++ refsOfMembers rest

end

end ApiTypes.Value

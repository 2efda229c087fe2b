import ApiTypes.Document.Yaml.Token

/-!
# YAML nodes

* `Yaml.Node` : the tree that tokens write, with tags but without types;
* `Yaml.Reader` : the tokens that are left, with the nodes that have names and the tag handles;
* `Yaml.document?` : the node of a text of at most one document; a text without any has none.

A name can be given once and stands for its node from there on. A node that holds its own name is
`endless`.
-/

namespace ApiTypes.Yaml

inductive Node where
  /-- A scalar with its tag; without one, `isPlain` tells whether the text says its type. -/
  | scalar (tag : Option String) (isPlain : Bool) (text : String)
  | sequence (tag : Option String) (items : List Node)
  | mapping (tag : Option String) (pairs : List (Node × Node))
  deriving Repr, Inhabited

namespace Node

/-- The node of a place that is left empty. -/
def blank : Node := .scalar none true ""

end Node

/-- Where reading stands. A name whose node is not read to its end has none yet. -/
structure Reader where
  tokens : List Token
  names : List (String × Option Node)
  handles : List (String × String)
  deriving Repr, Inhabited

namespace Reader

/-- The start of the tags that the double exclamation mark abbreviates. -/
def standardStart : String := "tag:yaml.org,2002:"

def peek (r : Reader) : Token := r.tokens.head?.getD .streamEnd

def next (r : Reader) : Reader := { r with tokens := r.tokens.tail }

/-- Gives a node a name. -/
def give (r : Reader) (name : Option String) (n : Option Node) : Reader :=
  match name with
  | some s => { r with names := (s, n) :: r.names }
  | none => r

/-- The node of a name. -/
def named (r : Reader) (name : String) : Except Failure Node :=
  match r.names.find? (·.1 = name) with
  | some (_, some n) => .ok n
  | some (_, none) => .error .endless
  | none => .error .malformed

/-- The whole tag of a handle and a suffix. -/
def tagOf (r : Reader) (handle : Option String) (suffix : String) : Except Failure String :=
  match handle with
  | none => .ok suffix
  | some h =>
    match r.handles.find? (·.1 = h) with
    | some (_, start) => .ok (start ++ suffix)
    | none => .error .malformed

/-- The name and the tag that stand before a node, in any order. -/
structure Marks where
  name : Option String
  tag : Option String

/-- The marks before a node. A name is given once. -/
def marks (r : Reader) : Except Failure (Marks × Reader) := do
  let (name, r) := match r.peek with
    | .anchor s => (some s, r.next)
    | _ => (none, r)
  let (tag, r) ← match r.peek with
    | .tag handle suffix => do pure (some (← r.tagOf handle suffix), r.next)
    | _ => pure (none, r)
  let (name, r) := match name, tag, r.peek with
    | none, some _, .anchor s => (some s, r.next)
    | name, _, _ => (name, r)
  if name.any fun s => r.names.any (·.1 = s) then .error .malformed
  else return (⟨name, tag⟩, r)

/-- The tag that decides about a node: a single exclamation mark is none. -/
def Marks.realTag (m : Marks) : Option String := m.tag.filter (· ≠ "!")

/-- A scalar with its marks. Without a tag, what a plain text says decides, and with the tag of a
single exclamation mark, what any text says. -/
def Marks.scalar (m : Marks) (text : String) (isPlain : Bool) : Node :=
  .scalar m.realTag ((isPlain && m.tag.isNone) || m.tag = some "!") text

/-- Whether the value of a mapping in a block is left empty before a token. -/
def endsBlockPart : Token → Bool
  | .key | .value | .blockEnd => true
  | _ => false

/-- Whether an item of a sequence in a block is left empty before a token. -/
def endsItem : Token → Bool
  | .blockEntry | .blockEnd => true
  | _ => false

mutual

/-- A node. `inBlock` allows block collections, and `indentless` a block sequence that is not
indented. -/
def node (inBlock indentless : Bool) : Nat → Reader → Except Failure (Node × Reader)
  | 0, _ => .error .malformed
  | fuel + 1, r =>
    match r.peek with
    | .reference name => do return (← r.named name, r.next)
    | _ => do
      let (m, r) ← r.marks
      let begun := r.give m.name none
      let finish := fun (x : Node × Reader) => (x.1, x.2.give m.name (some x.1))
      match r.peek with
      | .scalar text isPlain =>
        return finish (m.scalar text isPlain, r.next)
      | .flowSequenceStart => do
        let (items, r) ← flowItems true fuel begun.next
        return finish (.sequence m.realTag items, r)
      | .flowMappingStart => do
        let (pairs, r) ← flowPairs true fuel begun.next
        return finish (.mapping m.realTag pairs, r)
      | .blockEntry =>
        if indentless then do
          let (items, r) ← indentlessItems fuel begun
          return finish (.sequence m.realTag items, r)
        else if m.name.isSome || m.tag.isSome then return finish (m.scalar "" true, r)
        else .error .malformed
      | .blockSequenceStart =>
        if inBlock then do
          let (items, r) ← blockItems fuel begun.next
          return finish (.sequence m.realTag items, r)
        else if m.name.isSome || m.tag.isSome then return finish (m.scalar "" true, r)
        else .error .malformed
      | .blockMappingStart =>
        if inBlock then do
          let (pairs, r) ← blockPairs fuel begun.next
          return finish (.mapping m.realTag pairs, r)
        else if m.name.isSome || m.tag.isSome then return finish (m.scalar "" true, r)
        else .error .malformed
      | _ =>
        if m.name.isSome || m.tag.isSome then return finish (m.scalar "" true, r)
        else .error .malformed

/-- The items of a block sequence up to its end. -/
def blockItems : Nat → Reader → Except Failure (List Node × Reader)
  | 0, _ => .error .malformed
  | fuel + 1, r =>
    match r.peek with
    | .blockEntry => do
      let (item, r) ← if endsItem r.next.peek then .ok (Node.blank, r.next)
        else node true false fuel r.next
      let (items, r) ← blockItems fuel r
      return (item :: items, r)
    | .blockEnd => return ([], r.next)
    | _ => .error .malformed

/-- The items of a block sequence that is not indented. -/
def indentlessItems : Nat → Reader → Except Failure (List Node × Reader)
  | 0, _ => .error .malformed
  | fuel + 1, r =>
    match r.peek with
    | .blockEntry => do
      let after := r.next.peek
      let (item, r) ← if endsItem after || endsBlockPart after then .ok (Node.blank, r.next)
        else node true false fuel r.next
      let (items, r) ← indentlessItems fuel r
      return (item :: items, r)
    | _ => return ([], r)

/-- The keys and values of a block mapping up to its end. -/
def blockPairs : Nat → Reader → Except Failure (List (Node × Node) × Reader)
  | 0, _ => .error .malformed
  | fuel + 1, r =>
    match r.peek with
    | .key => do
      let (key, r) ← if endsBlockPart r.next.peek then .ok (Node.blank, r.next)
        else node true true fuel r.next
      let (value, r) ← match r.peek with
        | .value =>
          if endsBlockPart r.next.peek then .ok (Node.blank, r.next) else node true true fuel r.next
        | _ => .ok (Node.blank, r)
      let (pairs, r) ← blockPairs fuel r
      return ((key, value) :: pairs, r)
    | .blockEnd => return ([], r.next)
    | _ => .error .malformed

/-- The items of a flow sequence up to its end. A key and a value in it are a mapping. -/
def flowItems (isFirst : Bool) : Nat → Reader → Except Failure (List Node × Reader)
  | 0, _ => .error .malformed
  | fuel + 1, r =>
    match r.peek with
    | .flowSequenceEnd => return ([], r.next)
    | t => do
      let r ← if isFirst then .ok r
        else if t = .flowEntry then .ok r.next else .error .malformed
      match r.peek with
      | .flowSequenceEnd => return ([], r.next)
      | .key => do
        let (pair, r) ← flowPair .flowSequenceEnd fuel r.next
        let (items, r) ← flowItems false fuel r
        return (.mapping none [pair] :: items, r)
      | _ => do
        let (item, r) ← node false false fuel r
        let (items, r) ← flowItems false fuel r
        return (item :: items, r)

/-- The keys and values of a flow mapping up to its end. -/
def flowPairs (isFirst : Bool) : Nat → Reader → Except Failure (List (Node × Node) × Reader)
  | 0, _ => .error .malformed
  | fuel + 1, r =>
    match r.peek with
    | .flowMappingEnd => return ([], r.next)
    | t => do
      let r ← if isFirst then .ok r
        else if t = .flowEntry then .ok r.next else .error .malformed
      match r.peek with
      | .flowMappingEnd => return ([], r.next)
      | .key => do
        let (pair, r) ← flowPair .flowMappingEnd fuel r.next
        let (pairs, r) ← flowPairs false fuel r
        return (pair :: pairs, r)
      | _ => do
        let (key, r) ← node false false fuel r
        let (pairs, r) ← flowPairs false fuel r
        return ((key, Node.blank) :: pairs, r)

/-- A key and a value in a flow collection with the given end, either of which may be empty. -/
def flowPair (close : Token) : Nat → Reader → Except Failure ((Node × Node) × Reader)
  | 0, _ => .error .malformed
  | fuel + 1, r => do
    let isEnd := fun t => t = Token.flowEntry || t = close
    let (key, r) ← if r.peek = .value || isEnd r.peek then .ok (Node.blank, r)
      else node false false fuel r
    match r.peek with
    | .value => do
      let (value, r) ← if isEnd r.next.peek then .ok (Node.blank, r.next)
        else node false false fuel r.next
      return ((key, value), r)
    | _ => return ((key, Node.blank), r)

end

/-! ## Documents -/

/-- The directives before a document: a version, of which the first number is to be 1, and tag
handles, each once. -/
def directives (hasVersion : Bool) : Nat → Reader → Except Failure Reader
  | 0, _ => .error .malformed
  | fuel + 1, r =>
    match r.peek with
    | .version major =>
      if hasVersion || major ≠ 1 then .error .malformed else directives true fuel r.next
    | .tagHandle handle start =>
      if r.handles.any (·.1 = handle) then .error .malformed
      else directives hasVersion fuel { r.next with handles := (handle, start) :: r.handles }
    | .otherDirective => directives hasVersion fuel r.next
    | _ => .ok r

/-- The handles that need no directive. -/
def standardHandles : List (String × String) := [("!", "!"), ("!!", standardStart)]

/-- With the handles that need no directive, where none of that name is declared. -/
def withStandard (r : Reader) : Reader := { r with handles := r.handles ++ standardHandles }

/-- Without marks of the end of a document. -/
def skipEnds (r : Reader) : Reader :=
  { r with tokens := r.tokens.dropWhile (· = .documentEnd) }

/-- The node of a document that is marked. -/
def content (fuel : Nat) (r : Reader) : Except Failure (Node × Reader) :=
  match r.peek with
  | .version _ | .tagHandle .. | .otherDirective | .documentStart | .documentEnd | .streamEnd =>
    .ok (Node.blank, r)
  | _ => node true false fuel r

/-- The only document. -/
def only (fuel : Nat) (r : Reader) : Except Failure (Option Node) := do
  let isMarked := match r.peek with
    | .version _ | .tagHandle .. | .otherDirective | .documentStart | .streamEnd => true
    | _ => false
  if r.peek = .streamEnd then return none
  else
    let (n, r) ←
      if isMarked then do
        let r ← directives false fuel r
        if r.peek = .documentStart then content fuel r.withStandard.next else .error .malformed
      else node true false fuel r.withStandard
    if r.skipEnds.peek = .streamEnd then return some n else .error .malformed

end Reader

/-- The node of a text of at most one document. Each step of reading takes a token or goes from a
token to one of the few functions that take it. -/
def document? (cs : List Char) : Except Failure (Option Node) := do
  let ts ← tokens cs
  Reader.only (4 * ts.length + 8) ⟨ts, [], []⟩

end ApiTypes.Yaml

import ApiTypes.Document.Yaml.Scalar
import ApiTypes.Text.Utf8

/-!
# YAML tokens

* `Yaml.Token` : the tokens of a YAML text, blocks marked by their starts and ends;
* `Yaml.Lexer` : where tokenizing stands: the open blocks, the nesting of flow collections, and the
  places where a key without mark may have begun;
* `Lexer.step` : the next token; `Yaml.tokens` : all tokens of a text.

A key without mark is known as a key only at its colon. The token that marks it is then put before
the key's own tokens. A key has to stand on one line, within `Lexer.keyWidth` characters.
-/

namespace ApiTypes.Yaml

inductive Token where
  /-- The version that a text names: its first number. -/
  | version (major : Nat)
  /-- An abbreviation of tags. -/
  | tagHandle (handle : String) (start : String)
  | otherDirective
  | documentStart
  | documentEnd
  | streamEnd
  | blockSequenceStart
  | blockMappingStart
  | blockEnd
  | flowSequenceStart
  | flowSequenceEnd
  | flowMappingStart
  | flowMappingEnd
  | blockEntry
  | flowEntry
  | key
  | value
  | reference (name : String)
  | anchor (name : String)
  /-- A tag, with the handle that abbreviates its start, if one does. -/
  | tag (handle : Option String) (suffix : String)
  | scalar (text : String) (isPlain : Bool)
  deriving DecidableEq, Repr, Inhabited

/-- How the reading of a text can fail. -/
inductive Failure where
  | malformed
  /-- A number names no character, no day or no number. -/
  | badNumber
  /-- A part of a number is too great for a binary fraction. -/
  | tooGreat
  /-- A numeral without characters. -/
  | emptyNumeral
  /-- A word that is to be one of a few is not. -/
  | unknownWord
  /-- A text that is to be a date is none. -/
  | notDate
  /-- A mapping is where a date is to be. -/
  | notText
  /-- A value holds itself. -/
  | endless
  /-- A value of a kind that is not told here: octets, a set, or a list of pairs. -/
  | untold
  deriving DecidableEq, Repr

/-- A place where a key without mark may have begun. -/
structure PossibleKey where
  /-- The nesting of flow collections at the place. -/
  level : Nat
  /-- The number of tokens before the key. -/
  position : Nat
  isRequired : Bool
  index : Nat
  line : Nat
  column : Nat
  deriving Repr, Inhabited

structure Lexer where
  cursor : Cursor
  /-- The tokens so far, last first. -/
  tokens : List Token
  /-- The number of tokens so far. -/
  count : Nat
  flowLevel : Nat
  /-- The column of the innermost block, one more than it is; `0` outside of all blocks. -/
  indent : Nat
  /-- The columns of the blocks around it. -/
  outer : List Nat
  allowsKey : Bool
  keys : List PossibleKey
  isDone : Bool
  deriving Repr, Inhabited

namespace Lexer

def start (cs : List Char) : Lexer :=
  { cursor := .start cs, tokens := [], count := 0, flowLevel := 0, indent := 0, outer := []
    allowsKey := true, keys := [], isDone := false }

/-- The most characters that a key without mark may take. -/
def keyWidth : Nat := 1024

def inFlow (l : Lexer) : Bool := l.flowLevel ≠ 0

/-- Adds a token. -/
def emit (l : Lexer) (t : Token) : Lexer := { l with tokens := t :: l.tokens, count := l.count + 1 }

/-- Adds a token at a position counted from the first token. -/
def insertAt (l : Lexer) (position : Nat) (t : Token) : Lexer :=
  let after := l.count - position
  { l with tokens := l.tokens.take after ++ t :: l.tokens.drop after, count := l.count + 1 }

/-! ## Keys without mark -/

/-- Whether the text has gone on too far for a key. -/
def isStale (l : Lexer) (k : PossibleKey) : Bool :=
  k.line ≠ l.cursor.line || keyWidth < l.cursor.index - k.index

/-- Without the keys that can be none any more; it is a failure if one of them had to be one. -/
def dropStaleKeys (l : Lexer) : Except Failure Lexer :=
  if l.keys.any fun k => l.isStale k && k.isRequired then .error .malformed
  else .ok { l with keys := l.keys.filter fun k => !l.isStale k }

/-- The key that may have begun at the present nesting. -/
def possibleKey? (l : Lexer) : Option PossibleKey := l.keys.find? (·.level = l.flowLevel)

/-- Without that key; it is a failure if it had to be one. -/
def dropKey (l : Lexer) : Except Failure Lexer :=
  if l.possibleKey?.any (·.isRequired) then .error .malformed
  else .ok { l with keys := l.keys.filter (·.level ≠ l.flowLevel) }

/-- Notes that a key may begin here, where keys are allowed. The first token of a line at the
indentation of a block has to be one. -/
def noteKey (l : Lexer) : Except Failure Lexer :=
  if l.allowsKey then do
    let m ← l.dropKey
    let c := m.cursor
    let key : PossibleKey :=
      { level := m.flowLevel, position := m.count
        isRequired := !m.inFlow && m.indent = c.column + 1
        index := c.index, line := c.line, column := c.column }
    return { m with keys := key :: m.keys }
  else .ok l

/-! ## Blocks -/

/-- Closes the blocks that are wider than a column, given as one more than it is. -/
def closeBlocks (l : Lexer) (width : Nat) : Lexer :=
  if l.inFlow then l else close l.outer l
where
  /-- Closes blocks, innermost first. -/
  close : List Nat → Lexer → Lexer
    | [], l => l
    | o :: rest, l =>
      if width < l.indent then close rest { l.emit .blockEnd with indent := o, outer := rest }
      else l

/-- Opens a block at a column if it is wider than the innermost one: whether it does, and the lexer
in it. -/
def openBlock (l : Lexer) (column : Nat) : Bool × Lexer :=
  if l.indent < column + 1 then
    (true, { l with indent := column + 1, outer := l.indent :: l.outer })
  else (false, l)

/-- Opens a block and adds its start where it is opened. -/
def openWith (l : Lexer) (t : Token) : Lexer :=
  let (opened, m) := l.openBlock l.cursor.column
  if opened then m.emit t else m

/-! ## Space between tokens -/

/-- The place after spaces, comments and line breaks. Outside of flow collections a key may begin on
a new line. -/
def skipSpace : Nat → Lexer → Lexer
  | 0, l => l
  | fuel + 1, l =>
    let c := l.cursor.skipSpaces.skipComment
    match c.lineBreak? with
    | none => { l with cursor := c }
    | some (_, d) => skipSpace fuel { l with cursor := d, allowsKey := l.allowsKey || !l.inFlow }

/-- The same, after a byte order mark that may start the text. -/
def toToken (l : Lexer) : Lexer :=
  let c := l.cursor
  let c := if c.index = 0 && c.peek = some byteOrderMark then c.next else c
  skipSpace (c.rest.length + 1) { l with cursor := c }

/-! ## Tokens -/

/-- The end of the text. -/
def endStream (l : Lexer) : Except Failure Lexer := do
  let m ← (l.closeBlocks 0).dropKey
  return { m.emit .streamEnd with allowsKey := false, keys := [], isDone := true }

/-- A mark of the start or the end of a document. -/
def documentMark (l : Lexer) (t : Token) : Except Failure Lexer := do
  let m ← (l.closeBlocks 0).dropKey
  return { m.emit t with allowsKey := false, cursor := m.cursor.skip 3 }

def isNameChar (c : Char) : Bool := c.isAlphanum || c = '-' || c = '_'

def isUriChar (c : Char) : Bool := c.isAlphanum || "-;/?:@&=+$,_.!~*'()[]%".toList.contains c

/-- The text of a URI with its escapes undone. -/
def uriText? (cs : List Char) : Option String := do
  let units ← escapes cs
  let chars ← (Utf8.decodeUnits none units).mapM id
  return String.ofList chars
where
  /-- Bytes of escapes, and characters. -/
  escapes : List Char → Option (List (UInt8 ⊕ Char))
    | '%' :: h :: l :: rest => do return .inl (← Percent.byte? h l) :: (← escapes rest)
    | '%' :: _ => none
    | c :: rest => do return .inr c :: (← escapes rest)
    | [] => some []

/-- A URI at a place, and the place after it. -/
def uri? (c : Cursor) : Option (String × Cursor) :=
  let cs := c.span isUriChar
  if cs.isEmpty then none else (uriText? cs).map fun s => (s, c.skip cs.length)

/-- The handle of a tag at a place: two exclamation marks with a name between them, or one. -/
def handle? (c : Cursor) : Option (String × Cursor) :=
  if c.peek ≠ some '!' then none
  else if c.peekAt 1 = some ' ' then some ("!", c.next)
  else
    let name := c.next.span isNameChar
    if c.peekAt (name.length + 1) = some '!' then
      some (String.ofList ('!' :: name ++ ['!']), c.skip (name.length + 2))
    else none

/-- A number at a place. -/
def number? (c : Cursor) : Option (Nat × Cursor) :=
  let digits := c.span Char.isDigit
  if digits.isEmpty then none
  else some (digits.foldl (fun n d => 10 * n + (d.toNat - '0'.toNat)) 0, c.skip digits.length)

/-- The version that a directive names. -/
def version? (c : Cursor) : Option (Token × Cursor) := do
  let (major, c) ← number? c.skipSpaces
  if c.peek ≠ some '.' then none
  else
    let (_, c) ← number? c.next
    if c.atSpace then return (.version major, c) else none

/-- The abbreviation that a directive declares. -/
def tagDirective? (c : Cursor) : Option (Token × Cursor) := do
  let (handle, c) ← handle? c.skipSpaces
  if c.peek ≠ some ' ' then none
  else
    let (start, c) ← uri? c.skipSpaces
    if c.atSpace then return (.tagHandle handle start, c) else none

/-- A directive: a line that starts with a percent sign. -/
def directive? (c : Cursor) : Option (Token × Cursor) := do
  let name := c.next.span isNameChar
  let d := c.skip (name.length + 1)
  if name.isEmpty || !d.atSpace then none
  else
    let (t, e) ←
      if name = "YAML".toList then version? d
      else if name = "TAG".toList then tagDirective? d
      else some (.otherDirective, d.skipWhile (!isBreak ·))
    return (t, ← e.endLine?)

def directive (l : Lexer) : Except Failure Lexer := do
  let m ← (l.closeBlocks 0).dropKey
  match directive? m.cursor with
  | some (t, c) => return { m.emit t with allowsKey := false, cursor := c }
  | none => .error .malformed

/-- The start of a flow collection. -/
def openFlow (l : Lexer) (t : Token) : Except Failure Lexer := do
  let m ← l.noteKey
  return { m.emit t with
    flowLevel := m.flowLevel + 1, allowsKey := true, cursor := m.cursor.next }

/-- The end of a flow collection; where none is open it is a failure. -/
def closeFlow (l : Lexer) (t : Token) : Except Failure Lexer := do
  let m ← l.dropKey
  if m.inFlow then
    return { m.emit t with
      flowLevel := m.flowLevel - 1, allowsKey := false, cursor := m.cursor.next }
  else .error .malformed

/-- A comma. -/
def flowEntry (l : Lexer) : Except Failure Lexer := do
  let m ← { l with allowsKey := true }.dropKey
  return { m.emit .flowEntry with cursor := m.cursor.next }

/-- The mark of an item of a block sequence. -/
def blockEntry (l : Lexer) : Except Failure Lexer := do
  if !l.inFlow && !l.allowsKey then .error .malformed
  else
    let m := if l.inFlow then l else l.openWith .blockSequenceStart
    let m ← { m with allowsKey := true }.dropKey
    return { m.emit .blockEntry with cursor := m.cursor.next }

/-- The mark of a key. -/
def keyMark (l : Lexer) : Except Failure Lexer := do
  if !l.inFlow && !l.allowsKey then .error .malformed
  else
    let m := if l.inFlow then l else l.openWith .blockMappingStart
    let m ← { m with allowsKey := !m.inFlow }.dropKey
    return { m.emit .key with cursor := m.cursor.next }

/-- The mark of a value. What may have been a key without mark is one now. -/
def valueMark (l : Lexer) : Except Failure Lexer := do
  match l.possibleKey? with
  | some k =>
    let m := { l with keys := l.keys.filter (·.level ≠ l.flowLevel) }
    let m := m.insertAt k.position .key
    let m :=
      if m.inFlow then m
      else
        let (opened, n) := m.openBlock k.column
        if opened then n.insertAt k.position .blockMappingStart else n
    return { m.emit .value with allowsKey := false, cursor := m.cursor.next }
  | none =>
    if !l.inFlow && !l.allowsKey then .error .malformed
    else
      let m := if l.inFlow then l else l.openWith .blockMappingStart
      let m ← { m with allowsKey := !m.inFlow }.dropKey
      return { m.emit .value with cursor := m.cursor.next }

/-- Whether a name can end before a character. -/
def endsName (x : Option Char) : Bool :=
  Cursor.isBlankAt x || x.any ("?:,]\x7d%@\x60".toList.contains ·)

/-- The name of an anchor, after its mark. -/
def name (l : Lexer) (make : String → Token) : Except Failure Lexer := do
  let m ← l.noteKey
  let cs := m.cursor.next.span isNameChar
  let c := m.cursor.skip (cs.length + 1)
  if cs.isEmpty || !endsName c.peek then .error .malformed
  else return { m.emit (make (String.ofList cs)) with allowsKey := false, cursor := c }

/-- Whether a second exclamation mark follows before the next space. -/
def hasHandle (c : Cursor) : Bool :=
  (c.next.rest.takeWhile fun x => x ≠ ' ' && !isBreak x).contains '!'

/-- A tag, and the place after it. -/
def tag? (c : Cursor) : Option (Token × Cursor) := do
  let (t, d) ←
    if c.peekAt 1 = some '<' then do
      let (suffix, d) ← uri? (c.skip 2)
      if d.peek = some '>' then some (Token.tag none suffix, d.next) else none
    else if Cursor.isBlankAt (c.peekAt 1) then some (Token.tag none "!", c.next)
    else if hasHandle c then do
      let (handle, d) ← handle? c
      let (suffix, d) ← uri? d
      some (Token.tag (some handle) suffix, d)
    else do
      let (suffix, d) ← uri? c.next
      some (Token.tag (some "!") suffix, d)
  if d.atSpace then return (t, d) else none

def tag (l : Lexer) : Except Failure Lexer := do
  let m ← l.noteKey
  match tag? m.cursor with
  | some (t, c) => return { m.emit t with allowsKey := false, cursor := c }
  | none => .error .malformed

def blockScalar (l : Lexer) (isFolded : Bool) : Except Failure Lexer := do
  let m ← { l with allowsKey := true }.dropKey
  match blockScalar? isFolded m.indent m.cursor with
  | some (cs, c) => return { m.emit (.scalar (String.ofList cs) false) with cursor := c }
  | none => .error .malformed

def quotedScalar (l : Lexer) (quote : Char) : Except Failure Lexer := do
  let m ← l.noteKey
  match quotedScalar? quote m.cursor with
  | .ok (cs, c) =>
    return { m.emit (.scalar (String.ofList cs) false) with allowsKey := false, cursor := c }
  | .error .malformed => .error .malformed
  | .error .noCharacter => .error .badNumber

def plainScalar (l : Lexer) : Except Failure Lexer := do
  let m ← l.noteKey
  let (cs, hasBreak, c) := Yaml.plainScalar m.inFlow m.indent m.cursor
  return { m.emit (.scalar (String.ofList cs) true) with allowsKey := hasBreak, cursor := c }

/-- Whether a character starts a plain scalar by itself. -/
def startsPlain (x : Char) : Bool :=
  !(x = ' ' || x = '\t' || isBreak x || "-?:,[]\x7b\x7d#&*!|>\x27\"%@\x60".toList.contains x)

/-- Whether a plain scalar starts at a place. -/
def atPlain (l : Lexer) (x : Char) : Bool :=
  startsPlain x ||
    (!Cursor.isBlankAt (l.cursor.peekAt 1) && (x = '-' || (!l.inFlow && (x = '?' || x = ':'))))

/-- The token that starts with a character. -/
def token (l : Lexer) (x : Char) : Except Failure Lexer :=
  let c := l.cursor
  let isMark := Cursor.isBlankAt (c.peekAt 1)
  if x = '%' && c.column = 0 then l.directive
  else if c.column = 0 && c.atMark '-' then l.documentMark .documentStart
  else if c.column = 0 && c.atMark '.' then l.documentMark .documentEnd
  else if x = '[' then l.openFlow .flowSequenceStart
  else if x = '{' then l.openFlow .flowMappingStart
  else if x = ']' then l.closeFlow .flowSequenceEnd
  else if x = '}' then l.closeFlow .flowMappingEnd
  else if x = ',' then l.flowEntry
  else if x = '-' && isMark then l.blockEntry
  else if x = '?' && (l.inFlow || isMark) then l.keyMark
  else if x = ':' && (l.inFlow || isMark) then l.valueMark
  else if x = '*' then l.name .reference
  else if x = '&' then l.name .anchor
  else if x = '!' then l.tag
  else if x = '|' && !l.inFlow then l.blockScalar false
  else if x = '>' && !l.inFlow then l.blockScalar true
  else if x = '\'' || x = '"' then l.quotedScalar x
  else if l.atPlain x then l.plainScalar
  else .error .malformed

def step (l : Lexer) : Except Failure Lexer := do
  let l ← l.toToken.dropStaleKeys
  match l.cursor.peek with
  | none => l.endStream
  | some x => (l.closeBlocks (l.cursor.column + 1)).token x

/-- Steps up to the end of the text. -/
def run : Nat → Lexer → Except Failure (List Token)
  | 0, _ => .error .malformed
  | fuel + 1, l => do
    let m ← l.step
    if m.isDone then return m.tokens.reverse else run fuel m

end Lexer

/-- The tokens of a text. Each step but the last takes a character away. -/
def tokens (cs : List Char) : Except Failure (List Token) :=
  if cs.all isAllowed then Lexer.run (cs.length + 2) (.start cs) else .error .malformed

end ApiTypes.Yaml

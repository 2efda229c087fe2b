/-!
# Places in a YAML text

* `Yaml.Cursor` : the rest of a text, with its line and column;
* `Cursor.next`, `Cursor.skip`, `Cursor.skipWhile` : later places;
* `Cursor.lineBreak?` : a line break, as the character that it stands for, and the place after it;
* `Yaml.isBreak`, `Cursor.isBlankAt`, `Cursor.atMarker` : what stands at a place;
* `Yaml.isAllowed` : the characters that a YAML text may hold.
-/

namespace ApiTypes.Yaml

/-- The byte order mark, which takes no column. -/
def byteOrderMark : Char := Char.ofNat 0xfeff

def nextLine : Char := Char.ofNat 0x85
def lineSeparator : Char := Char.ofNat 0x2028
def paragraphSeparator : Char := Char.ofNat 0x2029

def isBreak (c : Char) : Bool :=
  c = '\n' || c = '\r' || c = nextLine || c = lineSeparator || c = paragraphSeparator

def isAllowed (c : Char) : Bool :=
  c = '\t' || c = '\n' || c = '\r' || c = nextLine ||
    (' ' ≤ c && c ≤ '~') || (0xa0 ≤ c.toNat && c.toNat ≤ 0xfffd) || 0x10000 ≤ c.toNat

/-- A place in a text. -/
structure Cursor where
  rest : List Char
  index : Nat
  line : Nat
  column : Nat
  deriving Repr, Inhabited

namespace Cursor

def start (cs : List Char) : Cursor := ⟨cs, 0, 0, 0⟩

/-- The character at a place. -/
def peek (c : Cursor) : Option Char := c.rest.head?

/-- The character some places later. -/
def peekAt (c : Cursor) (n : Nat) : Option Char := c.rest[n]?

def next (c : Cursor) : Cursor :=
  match c.rest with
  | [] => c
  | x :: rest =>
    if isBreak x && !(x = '\r' && rest.head? = some '\n') then
      ⟨rest, c.index + 1, c.line + 1, 0⟩
    else ⟨rest, c.index + 1, c.line, if x = byteOrderMark then c.column else c.column + 1⟩

def skip : Nat → Cursor → Cursor
  | 0, c => c
  | n + 1, c => skip n c.next

/-- The characters at a place of which each has a property. -/
def span (p : Char → Bool) (c : Cursor) : List Char := c.rest.takeWhile p

def skipWhile (p : Char → Bool) (c : Cursor) : Cursor := c.skip (c.span p).length

/-- The place after the spaces. -/
def skipSpaces (c : Cursor) : Cursor := c.skipWhile (· = ' ')

/-- The line break at a place, as a line feed unless it is a separator, and the place after it. -/
def lineBreak? (c : Cursor) : Option (Char × Cursor) :=
  match c.rest with
  | '\r' :: '\n' :: _ => some ('\n', c.skip 2)
  | x :: _ =>
    if x = lineSeparator || x = paragraphSeparator then some (x, c.next)
    else if isBreak x then some ('\n', c.next)
    else none
  | [] => none

/-- Whether a line or the text ends at a place. -/
def atLineEnd (c : Cursor) : Bool := c.peek.all isBreak

def isBlankAt (x : Option Char) : Bool := x.all fun c => c = ' ' || c = '\t' || isBreak c

/-- Whether a space or an end is at a place. -/
def atSpace (c : Cursor) : Bool := c.peek.all fun x => x = ' ' || isBreak x

/-- Whether three equal characters and a blank are at a place. -/
def atMark (x : Char) (c : Cursor) : Bool :=
  [x, x, x].isPrefixOf c.rest && isBlankAt (c.peekAt 3)

def atMarker (c : Cursor) : Bool := c.atMark '-' || c.atMark '.'

/-- The place after a comment, if there is one. -/
def skipComment (c : Cursor) : Cursor :=
  if c.peek = some '#' then c.skipWhile (!isBreak ·) else c

/-- The place after what may end a line: spaces, a comment, and the break. There is none if other
text comes first. -/
def endLine? (c : Cursor) : Option Cursor :=
  let d := c.skipSpaces.skipComment
  if d.atLineEnd then some ((d.lineBreak?.map Prod.snd).getD d) else none

end Cursor
end ApiTypes.Yaml

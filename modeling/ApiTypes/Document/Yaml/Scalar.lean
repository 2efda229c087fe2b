import ApiTypes.Document.Yaml.Cursor
import ApiTypes.Text.Percent

/-!
# YAML scalars

* `Yaml.plainScalar` : text without quotes, which ends at a comment, at an indicator, or where a
  line is not indented enough;
* `Yaml.quotedScalar?` : text between single or double quotes;
* `Yaml.blockScalar?` : literal and folded text, by its indentation.

Each gives the text and the place after it. A line break inside a scalar is folded: alone it is a
space, and of several the first is dropped.
-/

namespace ApiTypes.Yaml

/-! ## Plain scalars -/

/-- The end of a word of a plain scalar at a character, given the one after it. -/
def endsWord (inFlow : Bool) (x : Char) (after : Option Char) : Bool :=
  x = ' ' || x = '\t' || isBreak x ||
    (x = ':' &&
      (Cursor.isBlankAt after || (inFlow && after.any (",[]\x7b\x7d".toList.contains ·)))) ||
    (inFlow && ",?[]\x7b\x7d".toList.contains x)

/-- The word of a plain scalar at the start of a text. -/
def plainWord (inFlow : Bool) : List Char → List Char
  | [] => []
  | x :: rest => if endsWord inFlow x rest.head? then [] else x :: plainWord inFlow rest

/-- What folded line breaks become. -/
def folded (first : Char) (more : List Char) : List Char :=
  if first ≠ '\n' then first :: more else if more.isEmpty then [' '] else more

/-- Further line breaks and spaces, up to a number of them: the breaks, and the place after; none
if a document marker stands after a break. -/
def plainBreaks : Nat → Cursor → Option (List Char × Cursor)
  | 0, c => some ([], c)
  | fuel + 1, c =>
    if c.peek = some ' ' then plainBreaks fuel c.next
    else match c.lineBreak? with
      | none => some ([], c)
      | some (b, d) =>
        if d.atMarker then none
        else (plainBreaks fuel d).map fun (bs, e) => (b :: bs, e)

/-- What stands between two words of a plain scalar. -/
structure Gap where
  /-- The characters that join the words; none if the scalar ends. -/
  text : List Char
  /-- Whether a line has ended. -/
  hasBreak : Bool
  after : Cursor

/-- The gap at a place. -/
def gap (c : Cursor) : Gap :=
  let spaces := c.span (· = ' ')
  let d := c.skipSpaces
  match d.lineBreak? with
  | none => ⟨spaces, false, d⟩
  | some (b, e) =>
    if e.atMarker then ⟨[], true, e⟩
    else match plainBreaks (e.rest.length + 1) e with
      | none => ⟨[], true, e.skipWhile fun x => x = ' ' || isBreak x⟩
      | some (more, f) => ⟨folded b more, true, f⟩

/-- A plain scalar from a place on: its text, whether a line has ended after its last word, and the
place after it. `lead` joins the text to what came before. -/
def plainFrom (inFlow : Bool) (indent : Nat) :
    Nat → List Char → Cursor → List Char × Bool × Cursor
  | 0, _, c => ([], false, c)
  | fuel + 1, lead, c =>
    let word := if c.peek = some '#' then [] else plainWord inFlow c.rest
    if word.isEmpty then ([], false, c)
    else
      let g := gap (c.skip word.length)
      let text := lead ++ word
      if g.text.isEmpty || g.after.peek = some '#' || (!inFlow && g.after.column < indent) then
        (text, g.hasBreak, g.after)
      else
        let (more, hasBreak, d) := plainFrom inFlow indent fuel g.text g.after
        (text ++ more, if more.isEmpty then g.hasBreak else hasBreak, d)

/-- A plain scalar. Outside of flow collections its further lines are to be indented. -/
def plainScalar (inFlow : Bool) (indent : Nat) (c : Cursor) : List Char × Bool × Cursor :=
  plainFrom inFlow indent (c.rest.length + 1) [] c

/-! ## Quoted scalars -/

/-- The character that an escape letter stands for. -/
def escapes : List (Char × Nat) :=
  [('0', 0x00), ('a', 0x07), ('b', 0x08), ('t', 0x09), ('\t', 0x09), ('n', 0x0a), ('v', 0x0b),
   ('f', 0x0c), ('r', 0x0d), ('e', 0x1b), (' ', 0x20), ('"', 0x22), ('\\', 0x5c), ('/', 0x2f),
   ('N', 0x85), ('_', 0xa0), ('L', 0x2028), ('P', 0x2029)]

/-- The number of digits after an escape letter. -/
def escapeWidth : Char → Option Nat
  | 'x' => some 2
  | 'u' => some 4
  | 'U' => some 8
  | _ => none

/-- The number that hexadecimal digits write. -/
def hexNumber? (digits : List Char) : Option Nat :=
  digits.foldl (fun acc d => do return 16 * (← acc) + (← Percent.hexValue? d)) (some 0)

/-- Line breaks inside quotes, with the blanks between them; none at a document marker. -/
def quotedBreaks : Nat → Cursor → Option (List Char × Cursor)
  | 0, c => some ([], c)
  | fuel + 1, c =>
    if c.atMarker then none
    else
      let d := c.skipWhile fun x => x = ' ' || x = '\t'
      match d.lineBreak? with
      | none => some ([], d)
      | some (b, e) => (quotedBreaks fuel e).map fun (bs, f) => (b :: bs, f)

/-- How the reading of a scalar can fail. -/
inductive ScalarFailure where
  | malformed
  /-- An escape names no character. -/
  | noCharacter
  deriving DecidableEq, Repr

/-- An escape after its backslash: the characters that it stands for, and the place after it. -/
def escape (c : Cursor) : Except ScalarFailure (List Char × Cursor) :=
  match c.peek with
  | none => .error .malformed
  | some x =>
    match escapes.find? (·.1 = x), escapeWidth x with
    | some (_, n), _ => .ok ([Char.ofNat n], c.next)
    | none, some width =>
      let digits := c.next.rest.take width
      if digits.length < width then .error .malformed
      else match hexNumber? digits with
        | none => .error .malformed
        | some n =>
          if 0x10ffff < n then .error .noCharacter
          else
            let char := if 0xd800 ≤ n ∧ n ≤ 0xdfff then Char.ofNat 0xfffd else Char.ofNat n
            .ok ([char], c.skip (width + 1))
    | none, none =>
      match c.lineBreak? with
      | none => .error .malformed
      | some (_, d) => match quotedBreaks (d.rest.length + 1) d with
        | none => .error .malformed
        | some found => .ok found

/-- The text up to a closing quote, and the place after it. -/
def quotedFrom (quote : Char) : Nat → Cursor → Except ScalarFailure (List Char × Cursor)
  | 0, _ => .error .malformed
  | fuel + 1, c =>
    let prepend := fun (cs : List Char) (d : Cursor) => do
      let (more, e) ← quotedFrom quote fuel d
      return (cs ++ more, e)
    match c.peek with
    | none => .error .malformed
    | some x =>
      if x = quote then
        if quote = '\'' ∧ c.peekAt 1 = some '\'' then prepend ['\''] (c.skip 2)
        else .ok ([], c.next)
      else if x = '\\' ∧ quote = '"' then do
        let (cs, d) ← escape c.next
        prepend cs d
      else if x = ' ' || x = '\t' || isBreak x then
        let blanks := c.span fun x => x = ' ' || x = '\t'
        let d := c.skip blanks.length
        match d.lineBreak? with
        | none => if d.peek.isNone then .error .malformed else prepend blanks d
        | some (b, e) =>
          match quotedBreaks (e.rest.length + 1) e with
          | none => .error .malformed
          | some (more, f) => prepend (folded b more) f
      else prepend [x] c.next

def quotedScalar? (quote : Char) (c : Cursor) : Except ScalarFailure (List Char × Cursor) :=
  quotedFrom quote (c.rest.length + 1) c.next

/-! ## Block scalars -/

/-- What is kept of the line breaks at the end of a block scalar. -/
inductive Chomp where
  | strip | clip | keep
  deriving DecidableEq, Repr

/-- What the header of a block scalar says: the breaks that are kept at its end, and the
indentation of its text. -/
structure BlockHeader where
  chomp : Chomp
  indent : Option Nat

def chompOf? (x : Option Char) : Option Chomp :=
  match x with
  | some '+' => some .keep
  | some '-' => some .strip
  | _ => none

def indentOf? (x : Option Char) : Option Nat :=
  match x with
  | some d => if d.isDigit then some (d.toNat - '0'.toNat) else none
  | none => none

/-- The header of a block scalar, its two parts in any order, and the place after it. -/
def blockHeader? (c : Cursor) : Option (BlockHeader × Cursor) :=
  let found : BlockHeader × Cursor :=
    match chompOf? c.peek with
    | some chomp =>
      match indentOf? c.next.peek with
      | some n => (⟨chomp, some n⟩, c.skip 2)
      | none => (⟨chomp, none⟩, c.next)
    | none =>
      match indentOf? c.peek with
      | some n =>
        match chompOf? c.next.peek with
        | some chomp => (⟨chomp, some n⟩, c.skip 2)
        | none => (⟨.clip, some n⟩, c.next)
      | none => (⟨.clip, none⟩, c)
  if found.1.indent = some 0 || !found.2.atSpace then none else some found

/-- The spaces at the start of a line, up to an indentation. -/
def indentUpTo (indent : Nat) (c : Cursor) : Cursor :=
  c.skip (min (c.span (· = ' ')).length (indent - c.column))

/-- Empty lines of a block scalar: their breaks, and the place of the text after them. -/
def blockBreaks (indent : Nat) : Nat → Cursor → List Char × Cursor
  | 0, c => ([], c)
  | fuel + 1, c =>
    let d := indentUpTo indent c
    match d.lineBreak? with
    | none => ([], d)
    | some (b, e) =>
      let (bs, f) := blockBreaks indent fuel e
      (b :: bs, f)

/-- Empty lines before a block scalar whose indentation is not given: their breaks, the widest
indentation among them and the first line of text, and the place of the text. -/
def leadingBreaks : Nat → Cursor → List Char × Nat × Cursor
  | 0, c => ([], 0, c)
  | fuel + 1, c =>
    let d := c.skipSpaces
    match d.lineBreak? with
    | none => ([], d.column, d)
    | some (b, e) =>
      let (bs, width, f) := leadingBreaks fuel e
      (b :: bs, max d.column width, f)

/-- Whether a line of text starts with a blank. -/
def startsBlank (c : Cursor) : Bool := c.peek = some ' ' || c.peek = some '\t'

/-- The lines of a block scalar from a place at its indentation on, after some breaks; and the place
after the scalar. -/
def blockLines (isFolded : Bool) (chomp : Chomp) (indent : Nat) :
    Nat → List Char → Cursor → List Char × Cursor
  | 0, _, c => ([], c)
  | fuel + 1, breaks, c =>
    let line := c.span (!isBreak ·)
    let d := c.skip line.length
    let (lineBreak, d) := match d.lineBreak? with
      | some (b, e) => ([b], e)
      | none => ([], d)
    let (more, e) := blockBreaks indent (d.rest.length + 1) d
    if e.column = indent && e.peek.isSome then
      let isJoined := isFolded && lineBreak = ['\n'] && !startsBlank c && !startsBlank e
      let joint := if isJoined then (if more.isEmpty then [' '] else []) else lineBreak
      let (rest, f) := blockLines isFolded chomp indent fuel more e
      (breaks ++ line ++ joint ++ rest, f)
    else
      let tail := match chomp with
        | .strip => []
        | .clip => lineBreak
        | .keep => lineBreak ++ more
      (breaks ++ line ++ tail, e)

/-- A block scalar at its indicator, in a block of an indentation; and the place after it. -/
def blockScalar? (isFolded : Bool) (blockIndent : Nat) (c : Cursor) :
    Option (List Char × Cursor) := do
  let (header, d) ← blockHeader? c.next
  let d ← d.endLine?
  let least := max blockIndent 1
  let fuel := d.rest.length + 1
  let (breaks, indent, e) := match header.indent with
    | some n =>
      let indent := least + n - 1
      let (bs, e) := blockBreaks indent fuel d
      (bs, indent, e)
    | none =>
      let (bs, width, e) := leadingBreaks fuel d
      (bs, max least width, e)
  if e.column = indent && e.peek.isSome then
    return blockLines isFolded header.chomp indent (e.rest.length + 1) breaks e
  else
    return (if header.chomp = .keep then breaks else [], e)

end ApiTypes.Yaml

/-!
# Cutting texts

* `Text.cut` : the pieces between the occurrences of a character, never none;
* `Text.breakAt` : the text before and after the first occurrence of a character;
* `Text.lines` : the lines of a text, by every line break there is;
* `Text.contains`, `Text.startsWith`, `Text.endsWith` : occurrences of one text in another.
-/

namespace ApiTypes.Text

/-- The pieces between the occurrences of a separator: one more than there are separators. -/
def cut (sep : Char) : List Char → List (List Char)
  | [] => [[]]
  | c :: rest =>
    if c = sep then [] :: cut sep rest
    else match cut sep rest with
      | [] => [[c]]
      | piece :: pieces => (c :: piece) :: pieces

def breakAt (sep : Char) : List Char → Option (List Char × List Char)
  | [] => none
  | c :: rest =>
    if c = sep then some ([], rest)
    else (breakAt sep rest).map fun (before, after) => (c :: before, after)

/-- The characters that end a line. -/
def isLineBreak (c : Char) : Bool :=
  ('\n' ≤ c && c ≤ '\r') || (Char.ofNat 0x1c ≤ c && c ≤ Char.ofNat 0x1e) ||
    c = Char.ofNat 0x85 || c = Char.ofNat 0x2028 || c = Char.ofNat 0x2029

/-- The lines of a text without their ends; carriage return and line feed are one end together,
and the last line needs none. `line` holds the begun line, last character first. -/
def linesFrom (line : List Char) : List Char → List (List Char)
  | [] => if line.isEmpty then [] else [line.reverse]
  | '\r' :: '\n' :: rest => line.reverse :: linesFrom [] rest
  | c :: rest =>
    if isLineBreak c then line.reverse :: linesFrom [] rest else linesFrom (c :: line) rest

def lines (s : String) : List String := (linesFrom [] s.toList).map String.ofList

/-- Whether `part` occurs in a text. -/
def containsChars (part : List Char) : List Char → Bool
  | [] => part.isEmpty
  | c :: rest => part.isPrefixOf (c :: rest) || containsChars part rest

def contains (s part : String) : Bool := containsChars part.toList s.toList

def hasChar (s : String) (c : Char) : Bool := s.toList.contains c

def startsWith (s start : String) : Bool := start.toList.isPrefixOf s.toList

def endsWith (s ending : String) : Bool := ending.toList.isSuffixOf s.toList

/-- Texts with a separator between them. -/
def join (sep : String) (parts : List String) : String := String.intercalate sep parts

end ApiTypes.Text

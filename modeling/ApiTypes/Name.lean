import ApiTypes.Text.Case
import ApiTypes.Text.Lines
import ApiTypes.Text.Quoted
import ApiTypes.Path

/-!
# Names

* `Name.words` : the words of a text;
* `Name.pascal`, `Name.camel` : declaration and operation names made of those words;
* `Name.isIdentifier`, `Name.member` : member names, quoted unless they are identifiers;
* `Name.operation` : the name of an operation from its id, or from its method and path;
* `Name.folder` : a short directory name for a document.
-/

namespace ApiTypes.Name

/-! ## Words -/

/-- The longest runs of word characters. `word` holds the begun one, last character first. -/
def wordsFrom (word : List Char) : List Char → List (List Char)
  | [] => if word.isEmpty then [] else [word.reverse]
  | c :: rest =>
    if Text.isWordChar c then wordsFrom (c :: word) rest
    else if word.isEmpty then wordsFrom [] rest
    else word.reverse :: wordsFrom [] rest

/-- The words of a text. A text without small ASCII letters is taken in lower case. -/
def words (cs : List Char) : List (List Char) :=
  wordsFrom [] (if cs.any Char.isLower then cs else Text.lowerAll cs)

/-- A word with its first character in upper case. -/
def capitalize : List Char → List Char
  | [] => []
  | c :: rest => Text.upper c ++ rest

/-- The capitalized words in one, after an underscore if the text starts with one. -/
def pascalChars (cs : List Char) : List Char :=
  let body := (words cs).flatMap capitalize
  if cs.head? = some '_' then '_' :: body else body

/-- A name with the first character, or the first after an underscore, in lower case. -/
def uncapitalize : List Char → List Char
  | '_' :: c :: rest => '_' :: (Text.lower c ++ rest)
  | '_' :: [] => ['_']
  | c :: rest => Text.lower c ++ rest
  | [] => []

/-- A declaration name: the words of a text, each with a capital. -/
def pascal (s : String) : String := String.ofList (pascalChars s.toList)

/-- An operation name: the words of a text, each but the first with a capital. -/
def camel (s : String) : String := String.ofList (uncapitalize (pascalChars s.toList))

/-! ## Member names -/

def isIdentifierStart (c : Char) : Bool := c.isAlpha || c = '_' || c = '$'

def isIdentifierChar (c : Char) : Bool := c.isAlphanum || c = '_' || c = '$'

/-- Names that need no quotes: ASCII letters, digits, `_` and `$` without a leading digit. -/
def isIdentifier : List Char → Bool
  | [] => false
  | c :: rest => isIdentifierStart c && rest.all isIdentifierChar

/-- A text without one line feed at its end. -/
def dropFinalBreak (cs : List Char) : List Char :=
  if cs.getLast? = some '\n' then cs.dropLast else cs

/-- A member name: an identifier as it is, also before a final line feed, and any other text as a
literal. -/
def member (key : String) : String :=
  if isIdentifier (dropFinalBreak key.toList) then key else Text.quoted key

/-! ## Operations -/

/-- A text without the braces around it. -/
def stripBraces (cs : List Char) : List Char :=
  let isBrace := fun c => c = '{' ∨ c = '}'
  ((cs.dropWhile isBrace).reverse.dropWhile isBrace).reverse

/-- The segments of a path, parameters without their braces, with a hyphen between them. -/
def pathText (path : List Char) : List Char :=
  let parts := ((Text.cut '/' path).filter (· ≠ [])).map stripBraces
  let text := ['-'].intercalate parts
  if text.isEmpty then ['r', 'o', 'o', 't'] else text

def operation (method path : String) : String :=
  camel (String.ofList (Text.lowerAll method.toList ++ '-' :: pathText path.toList))

/-! ## Directories -/

/-- The endings of document names, in lower case. -/
def documentEndings : List (List Char) :=
  [['.', 'y', 'a', 'm', 'l'], ['.', 'y', 'm', 'l'], ['.', 'j', 's', 'o', 'n']]

/-- A character without its case; the long `ſ` is an `s`. -/
def foldCase (c : Char) : Char := if c = 'ſ' then 's' else c.toLower

/-- A name without its document ending, if it has one. -/
def dropEnding (name : List Char) : List Char :=
  match documentEndings.find? fun e => e.isSuffixOf (name.map foldCase) with
  | some e => name.take (name.length - e.length)
  | none => name

/-- A name without its document ending, a line feed after it kept. -/
def dropDocumentEnding (name : List Char) : List Char :=
  let bare := dropFinalBreak name
  dropEnding bare ++ name.drop bare.length

def isFolderChar (c : Char) : Bool := c.isAlphanum || c = '_' || c = '-'

/-- Each run of characters that a directory name cannot have, underscores included, as one
underscore. `gap` tells whether a run has begun. -/
def joinGaps (gap : Bool) : List Char → List Char
  | [] => []
  | c :: rest =>
    if isFolderChar c ∧ c ≠ '_' then c :: joinGaps false rest
    else if gap then joinGaps true rest
    else '_' :: joinGaps true rest

/-- A directory name for a document: the last segment of its key without the ending, over ASCII
letters, digits, hyphens and single underscores. -/
def folder (key : String) : String :=
  let slashed := key.toList.map fun c => if c = '\\' then '/' else c
  let name := (Path.segments slashed).getLast?.getD []
  let joined := joinGaps false (dropDocumentEnding name)
  let trimmed := ((joined.dropWhile (· = '_')).reverse.dropWhile (· = '_')).reverse
  if trimmed.isEmpty then "spec" else String.ofList trimmed

end ApiTypes.Name

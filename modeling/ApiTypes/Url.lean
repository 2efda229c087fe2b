import ApiTypes.Text.Lines

/-!
# Web addresses

* `Url` : the parts of an address;
* `Url.parse`, `Url.render` : between the parts and the text;
* `Url.resolve?` : an address, as written in a document, taken from the address of the document;
* `Url.isWeb` : the document keys that are addresses.
-/

namespace ApiTypes

/-- The parts of an address. The parameters are what a semicolon in the last segment of the path
starts. -/
structure Url where
  scheme : List Char
  host : List Char
  path : List Char
  params : List Char
  query : List Char
  fragment : List Char
  deriving DecidableEq, Repr, Inhabited

namespace Url

def isWeb (key : String) : Bool :=
  Text.startsWith key "http://" || Text.startsWith key "https://"

/-- The schemes whose addresses have parameters and may be taken from another address. -/
def webSchemes : List (List Char) := [['h', 't', 't', 'p'], ['h', 't', 't', 'p', 's']]

def isSchemeChar (c : Char) : Bool := c.isAlphanum || c = '+' || c = '-' || c = '.'

/-- The scheme, in lower case, and what follows its colon. -/
def splitScheme (cs : List Char) : Option (List Char × List Char) :=
  match Text.breakAt ':' cs with
  | some (c :: scheme, rest) =>
    if c.isAlpha && scheme.all isSchemeChar then some ((c :: scheme).map Char.toLower, rest)
    else none
  | _ => none

/-- The host and what follows it. -/
def splitHost : List Char → List Char × List Char
  | '/' :: '/' :: rest =>
    let isEnd := fun c => c = '/' ∨ c = '?' ∨ c = '#'
    (rest.takeWhile (¬ isEnd ·), rest.dropWhile (¬ isEnd ·))
  | cs => ([], cs)

/-- What comes before a character and what after it. -/
def splitAt (sep : Char) (cs : List Char) : List Char × List Char :=
  (Text.breakAt sep cs).getD (cs, [])

/-- A path and its parameters. -/
def splitParams (cs : List Char) : List Char × List Char :=
  let last := (cs.reverse.takeWhile (· ≠ '/')).reverse
  match Text.breakAt ';' last with
  | some (before, after) => (cs.take (cs.length - last.length) ++ before, after)
  | none => (cs, [])

/-- An address without the blanks before it and the tabs and line ends in it. -/
def clean (cs : List Char) : List Char :=
  (cs.dropWhile (· ≤ ' ')).filter fun c => c ≠ '\t' ∧ c ≠ '\r' ∧ c ≠ '\n'

/-- The parts of an address; one without a scheme has the scheme given. -/
def parse (defaultScheme cs : List Char) : Url :=
  let (scheme, rest) := (splitScheme (clean cs)).getD (defaultScheme, clean cs)
  let (host, rest) := splitHost rest
  let (rest, fragment) := splitAt '#' rest
  let (rest, query) := splitAt '?' rest
  let (path, params) := if webSchemes.contains scheme then splitParams rest else (rest, [])
  { scheme, host, path, params, query, fragment }

/-- The text of a part after its mark, if the part is there. -/
def after (mark : Char) (part : List Char) : List Char := if part.isEmpty then [] else mark :: part

def render (u : Url) : List Char :=
  let path := u.path ++ after ';' u.params
  let path := if path.isEmpty ∨ path.head? = some '/' then path else '/' :: path
  u.scheme ++ ':' :: '/' :: '/' :: u.host ++ path ++ after '?' u.query ++ after '#' u.fragment

/-- Segments one after another: `..` takes the last one away, `.` adds nothing. Reversed. -/
def descend (done : List (List Char)) (s : List Char) : List (List Char) :=
  if s = ['.', '.'] then done.tail else if s = ['.'] then done else s :: done

/-- The segments of a path taken from the path of a document. -/
def stepsFrom (base path : List Char) : List (List Char) :=
  let steps := Text.cut '/' path
  if path.head? = some '/' then steps
  else
    let baseSteps := Text.cut '/' base
    let directory := if baseSteps.getLast? = some [] then baseSteps else baseSteps.dropLast
    match directory ++ steps with
    | first :: rest => first :: (rest.dropLast.filter (· ≠ [])) ++ rest.getLast?.toList
    | [] => []

/-- A path taken from the path of a document. -/
def resolvePath (base path : List Char) : List Char :=
  let steps := stepsFrom base path
  let done := (steps.foldl descend []).reverse
  let done := match steps.getLast? with
    | some s => if s = ['.'] ∨ s = ['.', '.'] then done ++ [[]] else done
    | none => done
  let text := ['/'].intercalate done
  if text.isEmpty then ['/'] else text

/-- Whether the brackets of a host, which an address in numbers has, come in pairs. -/
def hasLoneBracket (u : Url) : Bool := u.host.contains '[' != u.host.contains ']'

/-- An address taken from the address of the document that holds it. There is none if a bracket in
a host stands alone. -/
def resolve? (base target : String) : Option String :=
  if target = "" then some base
  else
    let b := parse [] base.toList
    let t := parse b.scheme target.toList
    if b.hasLoneBracket || t.hasLoneBracket then none
    else if t.scheme ≠ b.scheme then some target
    else
      let full :=
        if !t.host.isEmpty then t
        else if t.path.isEmpty ∧ t.params.isEmpty then
          { t with
            host := b.host, path := b.path, params := b.params
            query := if t.query.isEmpty then b.query else t.query }
        else { t with host := b.host, path := resolvePath b.path t.path }
      some (String.ofList full.render)

/-- The path of an address. -/
def pathOf? (address : String) : Option String :=
  let u := parse [] address.toList
  if u.hasLoneBracket then none else some (String.ofList u.path)

end Url
end ApiTypes

import ApiTypes.Document.Basic
import ApiTypes.Text.Digit
import ApiTypes.Text.Lines
import ApiTypes.Text.Percent

/-!
# Pointers into documents

* `Pointer.split` : a reference as the part that names a document and the pointer after it;
* `Pointer.tokens` : the keys and positions that a pointer names, one after another;
* `Pointer.step`, `Pointer.walk` : the value that they lead to.
-/

namespace ApiTypes.Pointer

def split (ref : String) : String × String :=
  match Text.breakAt '#' ref.toList with
  | some (document, pointer) => (String.ofList document, String.ofList pointer)
  | none => (ref, "")

/-- A token with `~1` for a slash and `~0` for a tilde. -/
def untilde : List Char → List Char
  | '~' :: '1' :: rest => '/' :: untilde rest
  | '~' :: '0' :: rest => '~' :: untilde rest
  | c :: rest => c :: untilde rest
  | [] => []

/-- A token as it is written, with its escapes undone: percent escapes first. -/
def decodeToken (cs : List Char) : List Char := untilde (Percent.decode cs)

/-- The tokens of a pointer, after the slash that may begin it. -/
def tokensOf : List Char → List (List Char)
  | [] => []
  | '/' :: rest => (Text.cut '/' rest).map decodeToken
  | cs => (Text.cut '/' cs).map decodeToken

def tokens (pointer : String) : List String := (tokensOf pointer.toList).map String.ofList

/-- Why a pointer leads nowhere. -/
inductive Failure where
  /-- There is nothing under this token. -/
  | dangling (token : String)
  /-- The token is to be a position in a list but its digits are not those of a numeral. -/
  | notNumeral
  deriving DecidableEq, Repr

/-- The most digits that a position may have. -/
def maxDigits : Nat := 4300

def step (v : Value) (token : String) : Except Failure Value :=
  match v with
  | .map members =>
    match Members.field? members token with
    | some w => .ok w
    | none => .error (.dangling token)
  | .list items =>
    let cs := token.toList
    if !cs.isEmpty && cs.all Text.isDigit then
      match Text.natOfDecimals? cs with
      | some n =>
        if maxDigits < cs.length then .error .notNumeral
        else match items[n]? with
          | some w => .ok w
          | none => .error (.dangling token)
      | none => .error .notNumeral
    else .error (.dangling token)
  | .atom _ => .error (.dangling token)

def walk : Value → List String → Except Failure Value
  | v, [] => .ok v
  | v, token :: rest => do walk (← step v token) rest

/-- The value that a pointer leads to. -/
def resolve (document : Value) (pointer : String) : Except Failure Value :=
  walk document (tokens pointer)

end ApiTypes.Pointer

import ApiTypes.Keyed
import ApiTypes.Number.Binary64

/-!
# Documents

* `Atom` : the values without parts, which are also what a mapping may have as keys;
* `Value` : a document or a part of one, an atom, a list or a mapping whose members keep the order
  in which they were written;
* `Atom.same` : when two keys are one key: `1`, `1.0` and `true` are;
* `Members` : the members of a mapping, with `get?`, `put`, `erase` and `ofList`;
* `Value.isTrue` : what counts as given where a flag or a text is asked for;
* `Value.members?`, `Value.items?`, `Value.text?` : views of one kind of value each.
-/

namespace ApiTypes

/-- A moment of a day, with its offset from universal time in minutes where one was written. -/
structure Clock where
  hour : Nat
  minute : Nat
  second : Nat
  micro : Nat
  offset : Option Int
  deriving DecidableEq, Repr, Inhabited

inductive Atom where
  | null
  | bool (b : Bool)
  | int (n : Int)
  | float (x : Binary64)
  | text (s : String)
  | date (year month day : Nat)
  | moment (year month day : Nat) (clock : Clock)
  deriving DecidableEq, Repr, Inhabited

inductive Value where
  | atom (a : Atom)
  | list (items : List Value)
  | map (members : List (Atom × Value))
  deriving Repr, Inhabited

abbrev Members := List (Atom × Value)

namespace Atom

/-- The whole number that a flag or a whole number stands for. -/
def int? : Atom → Option Int
  | bool b => some (if b then 1 else 0)
  | int n => some n
  | _ => none

/-- Order of two numbers, flags counting as `0` and `1`; `none` for anything else. -/
def compareNumbers? (a b : Atom) : Option Ordering :=
  match a, b with
  | float x, float y => x.compare? y
  | float x, b => b.int?.bind x.compareInt?
  | a, float y => (a.int?.bind y.compareInt?).map Ordering.swap
  | a, b => do
    let m ← a.int?
    let n ← b.int?
    return compare m n

/-- Minutes since the first day of the calendar of a moment with an offset, and its seconds. -/
def instant (year month day : Nat) (c : Clock) (offset : Int) : Int :=
  let y := year - 1
  let leap := year % 4 = 0 ∧ (year % 100 ≠ 0 ∨ year % 400 = 0)
  let lengths := [31, if leap then 29 else 28, 31, 30, 31, 30, 31, 31, 30, 31, 30, 31]
  let days := y * 365 + y / 4 - y / 100 + y / 400 + (lengths.take (month - 1)).foldl (· + ·) 0 + day
  let minutes : Int := ((days * 24 + c.hour) * 60 + c.minute : Nat) - offset
  (minutes * 60 + c.second) * 1000000 + c.micro

/-- Whether two keys are one key. Numbers are compared by value, whatever their form. -/
def same (a b : Atom) : Bool :=
  match a, b with
  | float .nan, float .nan => true
  | text s, text t => s == t
  | null, null => true
  | date y m d, date y' m' d' => y == y' && m == m' && d == d'
  | moment y m d c, moment y' m' d' c' =>
    match c.offset, c'.offset with
    | none, none => y == y' && m == m' && d == d' && c == c'
    | some o, some o' => instant y m d c o == instant y' m' d' c' o'
    | _, _ => false
  | a, b => a.compareNumbers? b == some .eq

/-- What counts as given: everything but the empty text, zero, a refusal and `null`. -/
def isTrue : Atom → Bool
  | null => false
  | bool b => b
  | int n => n ≠ 0
  | float x => !x.isZero
  | text s => s ≠ ""
  | date .. | moment .. => true

def text? : Atom → Option String
  | text s => some s
  | _ => none

end Atom

namespace Members

/-- The value of a key. -/
def get? (ms : Members) (key : Atom) : Option Value :=
  (ms.find? fun m => m.1.same key).map Prod.snd

/-- The value of a key that is a text. -/
def field? (ms : Members) (key : String) : Option Value := get? ms (.text key)

def has (ms : Members) (key : String) : Bool := (field? ms key).isSome

/-- Sets the value of a key: in its place if the key is there, at the end if it is not. -/
def put (ms : Members) (key : Atom) (v : Value) : Members := Keyed.putBy Atom.same ms key v

/-- A member list in which each key stands once, at its first place and with its last value. -/
def ofList (ms : List (Atom × Value)) : Members := ms.foldl (fun acc m => put acc m.1 m.2) []

/-- The members other than one key. -/
def erase (ms : Members) (key : String) : Members := ms.filter fun m => !m.1.same (.text key)

end Members

namespace Value

abbrev null : Value := .atom .null
abbrev text (s : String) : Value := .atom (.text s)
abbrev bool (b : Bool) : Value := .atom (.bool b)

/-- What counts as given: a value with parts does when it has some. -/
def isTrue : Value → Bool
  | atom a => a.isTrue
  | list items => !items.isEmpty
  | map members => !members.isEmpty

def text? : Value → Option String
  | atom a => a.text?
  | _ => none

def items? : Value → Option (List Value)
  | list items => some items
  | _ => none

def members? : Value → Option Members
  | map members => some members
  | _ => none

/-- The value of a key of a mapping; `none` for any other value. -/
def field? (v : Value) (key : String) : Option Value := v.members?.bind (·.field? key)

/-- Whether a member is there and counts as given. -/
def flag (ms : Members) (key : String) : Bool := (ms.field? key).any isTrue

end Value
end ApiTypes

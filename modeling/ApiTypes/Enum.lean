import ApiTypes.Document.Text
import ApiTypes.Name

/-!
# Enumerated values

* `Enum.literal` : the literal type of a value;
* `Enum.literals` : the different literals of some values;
* `Enum.entries` : the entries of an object that lists the values, each under a key of its own;
* `Enum.body` : these entries, a line each.
-/

namespace ApiTypes.Enum

/-- The literal of a value: numbers, of any length as in `Value.plain`, flags and `null` are their
own, all else is a quoted text. -/
def literal : Value → String
  | .atom .null => "null"
  | .atom (.bool b) => if b then "true" else "false"
  | .atom (.int n) => toString n
  | .atom (.float x) => x.text
  | v => Text.quoted v.plain

/-- Values without those that come again. -/
def distinct : List String → List String
  | [] => []
  | s :: rest => s :: (distinct rest).filter (· ≠ s)

def literals (values : List Value) : List String := distinct (values.map literal)

/-- A character of a number inside a key. -/
def numberKeyChar (c : Char) : List Char :=
  if c = '-' then "MINUS_".toList
  else if c = '.' then "_DOT_".toList
  else if c.isAlphanum || c = '_' then [c]
  else ['_']

/-- The key of a number. -/
def numberKey (text : String) : String :=
  String.ofList ("NUMBER_".toList ++ text.toList.flatMap numberKeyChar)

/-- The key of a value; `null` has none. -/
def key? : Value → Option String
  | .atom .null => none
  | .atom (.int n) => some (numberKey (toString n))
  | .atom (.float x) => some (numberKey x.text)
  | .atom (.text s) => some (Name.member s)
  | v => some (Name.member (literal v))

/-- Keys and literals, without those whose key has come before. -/
def firstOfKey : List (String × String) → List (String × String)
  | [] => []
  | e :: rest => e :: (firstOfKey rest).filter (·.1 ≠ e.1)

def entries (values : List Value) : List (String × String) :=
  firstOfKey (values.filterMap fun v => (key? v).map fun k => (k, literal v))

/-- An entry on a line of its own. -/
def entryLine (e : String × String) : String := "  " ++ e.1 ++ ": " ++ e.2 ++ ",\n"

def body (values : List Value) : String := String.join ((entries values).map entryLine)

end ApiTypes.Enum

import ApiTypes.Document.Basic
import ApiTypes.Text.Percent

/-!
# JSON documents

* `Json.read` : the value of a JSON text. Members keep their order, whole numbers and fractions are
  told apart, and `NaN`, `Infinity` and `-Infinity` are numbers;
* `Json.string`, `Json.number` : the two atoms that need reading.

A text that starts with a byte order mark is no JSON text, nor is one with a whole number of more
than `Json.maxDigits` digits.
-/

namespace ApiTypes.Json

/-- The most digits that a whole number may have. -/
def maxDigits : Nat := 4300

def isSpace (c : Char) : Bool := c = ' ' || c = '\t' || c = '\n' || c = '\r'

def skipSpace (cs : List Char) : List Char := cs.dropWhile isSpace

/-! ## Strings -/

/-- The number of four hexadecimal digits. -/
def unit16? (a b c d : Char) : Option Nat := do
  return 4096 * (← Percent.hexValue? a) + 256 * (← Percent.hexValue? b) +
    16 * (← Percent.hexValue? c) + (← Percent.hexValue? d)

/-- The character of an escape letter. -/
def escaped? : Char → Option Char
  | '"' => some '"'
  | '\\' => some '\\'
  | '/' => some '/'
  | 'b' => some (Char.ofNat 8)
  | 'f' => some (Char.ofNat 12)
  | 'n' => some '\n'
  | 'r' => some '\r'
  | 't' => some '\t'
  | _ => none

/-- The first half of a pair of units that write one character. -/
def isHighHalf (n : Nat) : Bool := 0xd800 ≤ n && n ≤ 0xdbff

def isLowHalf (n : Nat) : Bool := 0xdc00 ≤ n && n ≤ 0xdfff

/-- The character of a unit that stands alone; a half has none of its own. -/
def lone (n : Nat) : Char := Char.ofNat (if isHighHalf n || isLowHalf n then 0xfffd else n)

/-- Units as characters: a pair of halves is one character. -/
def joinUnits : List (Nat ⊕ Char) → List Char
  | .inl a :: .inl b :: rest =>
    if isHighHalf a && isLowHalf b then
      Char.ofNat (0x10000 + 1024 * (a - 0xd800) + (b - 0xdc00)) :: joinUnits rest
    else lone a :: joinUnits (.inl b :: rest)
  | .inl a :: rest => lone a :: joinUnits rest
  | .inr c :: rest => c :: joinUnits rest
  | [] => []

/-- The rest of a string after its opening quote, and what follows the closing one. -/
def stringUnits : List Char → Option (List (Nat ⊕ Char) × List Char)
  | '"' :: rest => some ([], rest)
  | '\\' :: 'u' :: a :: b :: c :: d :: rest => do
    let n ← unit16? a b c d
    let (units, rest) ← stringUnits rest
    return (.inl n :: units, rest)
  | '\\' :: e :: rest => do
    let c ← escaped? e
    let (units, rest) ← stringUnits rest
    return (.inr c :: units, rest)
  | c :: rest =>
    if c < ' ' then none
    else do
      let (units, rest) ← stringUnits rest
      return (.inr c :: units, rest)
  | [] => none

def string (cs : List Char) : Option (String × List Char) :=
  (stringUnits cs).map fun (units, rest) => (String.ofList (joinUnits units), rest)

/-! ## Numbers -/

/-- The number that ASCII digits write. -/
def natOf (digits : List Char) : Nat :=
  digits.foldl (fun n c => 10 * n + (c.toNat - '0'.toNat)) 0

/-- Digits after a point, if there is a point with digits after it. -/
def fraction : List Char → List Char × List Char
  | '.' :: rest =>
    let digits := rest.takeWhile Char.isDigit
    if digits.isEmpty then ([], '.' :: rest) else (digits, rest.dropWhile Char.isDigit)
  | cs => ([], cs)

/-- An exponent, if there is a mark with digits after it. -/
def exponent (cs : List Char) : Option Int × List Char :=
  match cs with
  | mark :: rest =>
    if mark = 'e' ∨ mark = 'E' then
      let (negative, digits) := match rest with
        | '-' :: more => (true, more)
        | '+' :: more => (false, more)
        | more => (false, more)
      let number := digits.takeWhile Char.isDigit
      if number.isEmpty then (none, cs)
      else
        let n : Int := natOf number
        (some (if negative then -n else n), digits.dropWhile Char.isDigit)
    else (none, cs)
  | [] => (none, [])

def number (negative : Bool) (cs : List Char) : Option (Atom × List Char) :=
  let digits := match cs with
    | '0' :: _ => ['0']
    | _ => cs.takeWhile Char.isDigit
  if digits.isEmpty then none
  else
    let (decimals, rest) := fraction (cs.drop digits.length)
    let (power, rest) := exponent rest
    if decimals.isEmpty ∧ power = none then
      let n : Int := natOf digits
      if maxDigits < digits.length then none
      else some (.int (if negative then -n else n), rest)
    else
      let shift : Int := power.getD 0 - decimals.length
      some (.float (.ofDecimal negative (natOf (digits ++ decimals)) shift), rest)

/-! ## Values -/

/-- What follows a word at the start of a text. -/
def after? (word cs : List Char) : Option (List Char) :=
  if word.isPrefixOf cs then some (cs.drop word.length) else none

/-- The words that stand for a value. -/
def wordValues : List (List Char × Atom) :=
  [("null".toList, .null), ("true".toList, .bool true), ("false".toList, .bool false),
   ("NaN".toList, .float .nan), ("Infinity".toList, .float (.infinite false)),
   ("-Infinity".toList, .float (.infinite true))]

/-- A value without parts that is no string. -/
def atom (cs : List Char) : Option (Atom × List Char) :=
  match wordValues.findSome? fun (word, a) => (after? word cs).map fun rest => (a, rest) with
  | some found => some found
  | none => match cs with
    | '-' :: rest => number true rest
    | _ => number false cs

mutual

/-- A value at the start of a text, and what follows it. -/
def value : Nat → List Char → Option (Value × List Char)
  | 0, _ => none
  | fuel + 1, cs =>
    match cs with
    | '"' :: rest => (string rest).map fun (s, rest) => (.text s, rest)
    | '[' :: rest =>
      match skipSpace rest with
      | ']' :: rest => some (.list [], rest)
      | rest => (items fuel rest).map fun (vs, rest) => (.list vs, rest)
    | '{' :: rest =>
      match skipSpace rest with
      | '}' :: rest => some (.map [], rest)
      | rest => (members fuel rest).map fun (ms, rest) => (.map (Members.ofList ms), rest)
    | cs => (atom cs).map fun (a, rest) => (.atom a, rest)

/-- The items of a list up to its end. -/
def items : Nat → List Char → Option (List Value × List Char)
  | 0, _ => none
  | fuel + 1, cs => do
    let (v, rest) ← value fuel cs
    match skipSpace rest with
    | ']' :: rest => return ([v], rest)
    | ',' :: rest =>
      let (vs, rest) ← items fuel (skipSpace rest)
      return (v :: vs, rest)
    | _ => none

/-- The members of a mapping up to its end. -/
def members : Nat → List Char → Option (List (Atom × Value) × List Char)
  | 0, _ => none
  | fuel + 1, cs =>
    match cs with
    | '"' :: rest => do
      let (key, rest) ← string rest
      match skipSpace rest with
      | ':' :: rest =>
        let (v, rest) ← value fuel (skipSpace rest)
        match skipSpace rest with
        | '}' :: rest => return ([(.text key, v)], rest)
        | ',' :: rest =>
          let (ms, rest) ← members fuel (skipSpace rest)
          return ((.text key, v) :: ms, rest)
        | _ => none
      | _ => none
    | _ => none

end

/-- The value of a JSON text. Each step of reading takes a character away, so as many steps as the
text has characters are enough. -/
def read (cs : List Char) : Option Value := do
  let (v, rest) ← value (cs.length + 1) (skipSpace cs)
  if (skipSpace rest).isEmpty then return v else none

end ApiTypes.Json

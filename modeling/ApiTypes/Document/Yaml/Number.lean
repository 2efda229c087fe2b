import ApiTypes.Document.Basic
import ApiTypes.Document.Yaml.Token
import ApiTypes.Text.Blank
import ApiTypes.Text.Digit
import ApiTypes.Text.Lines

/-!
# Numbers in YAML

* `Yaml.isInteger`, `Yaml.isFloat` : the plain texts that are numbers;
* `Yaml.integer`, `Yaml.float` : their values.

Underscores may stand between digits. A zero in front means base eight, `0x` sixteen and `0b` two;
colons separate digits of base sixty.
-/

namespace ApiTypes.Yaml

/-! ## Forms -/

/-- A text without one sign at its start, and whether the sign is a minus. -/
def splitSign : List Char → Bool × List Char
  | '-' :: rest => (true, rest)
  | '+' :: rest => (false, rest)
  | cs => (false, cs)

def isSpacedDigit (c : Char) : Bool := c.isDigit || c = '_'

/-- Whether a text is a digit and then digits and underscores. -/
def isDigits : List Char → Bool
  | c :: rest => c.isDigit && rest.all isSpacedDigit
  | [] => false

/-- Whether a text is empty or an exponent with its sign. -/
def isExponent : List Char → Bool
  | [] => true
  | e :: sign :: digits =>
    (e = 'e' || e = 'E') && (sign = '-' || sign = '+') && !digits.isEmpty && digits.all Char.isDigit
  | _ => false

/-- Whether a text is one digit of base sixty. -/
def isSixtieth : List Char → Bool
  | [d] => d.isDigit
  | [t, d] => '0' ≤ t && t ≤ '5' && d.isDigit
  | _ => false

/-- Whether a text is a number with digits of base sixty after its first. -/
def isSexagesimal (first : List Char → Bool) (cs : List Char) : Bool :=
  match Text.cut ':' cs with
  | lead :: more => first lead && !more.isEmpty && more.all isSixtieth
  | [] => false

/-- Whether a text is a number with a point. -/
def isPointed (cs : List Char) : Bool :=
  match Text.breakAt '.' cs with
  | some (whole, rest) =>
    let exponent := rest.dropWhile isSpacedDigit
    (isDigits whole && isExponent exponent) ||
      (isSexagesimal isDigits whole && exponent.isEmpty)
  | none => false

/-- Whether a text is a point, digits and an exponent. -/
def isFraction : List Char → Bool
  | '.' :: d :: rest => d.isDigit && isExponent (rest.dropWhile isSpacedDigit)
  | _ => false

def infinities : List (List Char) := [".inf".toList, ".Inf".toList, ".INF".toList]

def notNumbers : List (List Char) := [".nan".toList, ".NaN".toList, ".NAN".toList]

def isFloat (cs : List Char) : Bool :=
  let unsigned := (splitSign cs).2
  isPointed unsigned || isFraction cs || infinities.contains unsigned || notNumbers.contains cs

/-- Whether a text is `0`, or a number that does not start with a zero. -/
def isDecimal : List Char → Bool
  | ['0'] => true
  | c :: rest => c ≠ '0' && c.isDigit && rest.all isSpacedDigit
  | [] => false

def isInteger (cs : List Char) : Bool :=
  let unsigned := (splitSign cs).2
  let based := fun (p : Char → Bool) (digits : List Char) =>
    !digits.isEmpty && digits.all fun c => c = '_' || p c
  isDecimal unsigned || isSexagesimal (fun cs => isDecimal cs && cs ≠ ['0']) unsigned ||
    match unsigned with
    | '0' :: 'b' :: digits => based (fun c => c = '0' || c = '1') digits
    | '0' :: 'x' :: digits => based (fun c => (Percent.hexValue? c).isSome) digits
    | '0' :: digits => based (fun c => '0' ≤ c && c ≤ '7') digits
    | _ => false

/-! ## Values -/

/-- The most digits that a decimal number may have. -/
def maxDigits : Nat := 4300

/-- A text without blanks around it. -/
def trimmed (cs : List Char) : List Char :=
  ((cs.dropWhile Text.isBlank).reverse.dropWhile Text.isBlank).reverse

/-- The value of a digit, decimal or a letter from `a` on. -/
def digitValue? (c : Char) : Option Nat :=
  match Text.decimalValue? c with
  | some n => some n
  | none => if c.toLower.isLower then some (c.toLower.toNat - 'a'.toNat + 10) else none

/-- The number that digits of a base write. -/
def natOfBase? (base : Nat) (digits : List Char) : Option Nat :=
  digits.foldl (fun acc c => do
    let n ← acc
    let d ← digitValue? c
    if d < base then return base * n + d else none) (some 0)

/-- A whole number of a base, with a sign. -/
def numeral (base : Nat) (cs : List Char) : Except Failure Int :=
  let (negative, digits) := splitSign (trimmed cs)
  if digits.isEmpty || (base = 10 && maxDigits < digits.length) then .error .badNumber
  else match natOfBase? base digits with
    | some n => .ok (if negative then -n else n)
    | none => .error .badNumber

/-- The sum of digits of base sixty, last first, the last one in units of `unit`. -/
def sixties (unit : Int) : List Int → Int
  | [] => 0
  | d :: rest => d * unit + sixties (60 * unit) rest

def integer (cs : List Char) : Except Failure Int := do
  let (negative, digits) := splitSign (cs.filter (· ≠ '_'))
  let n ← match digits with
    | [] => .error .emptyNumeral
    | ['0'] => .ok 0
    | '0' :: 'b' :: rest => numeral 2 rest
    | '0' :: 'x' :: rest => numeral 16 rest
    | '0' :: _ => numeral 8 digits
    | _ =>
      if digits.contains ':' then do
        pure (sixties 1 (← (Text.cut ':' digits).mapM (numeral 10)).reverse)
      else numeral 10 digits
  return if negative then -n else n

/-- A decimal number in lower case: digits with a point and an exponent, each of which may be
missing. -/
def decimal? (negative : Bool) (cs : List Char) : Option Binary64 :=
  if cs = "inf".toList ∨ cs = "infinity".toList then some (.infinite negative)
  else if cs = "nan".toList then some .nan
  else
    let whole := cs.takeWhile Char.isDigit
    let rest := cs.dropWhile Char.isDigit
    let (decimals, rest) := match rest with
      | '.' :: more => (more.takeWhile Char.isDigit, more.dropWhile Char.isDigit)
      | _ => ([], rest)
    let digits := whole ++ decimals
    if digits.isEmpty then none
    else do
      let exponent ← match rest with
        | [] => some 0
        | 'e' :: more =>
          let (minus, number) := splitSign more
          if number.isEmpty || !number.all Char.isDigit then none
          else do
            let n : Int ← (natOfBase? 10 number).map Int.ofNat
            pure (if minus then -n else n)
        | _ => none
      let n ← natOfBase? 10 digits
      return .ofDecimal negative n (exponent - decimals.length)

/-- A decimal number with a sign. -/
def fractionOf (cs : List Char) : Except Failure Binary64 :=
  let (negative, digits) := splitSign (trimmed cs)
  match decimal? negative digits with
  | some x => .ok x
  | none => .error .badNumber

/-- The sum of digits of base sixty, last first, added to a sum. Each unit is to be a binary
fraction itself. -/
def sixtiesFrom (sum : Binary64) (unit : Int) : List Binary64 → Except Failure Binary64
  | [] => .ok sum
  | d :: rest =>
    match Binary64.ofInt unit with
    | .infinite _ => .error .tooGreat
    | x => sixtiesFrom (sum.add (d.mul x)) (60 * unit) rest

def float (cs : List Char) : Except Failure Binary64 := do
  let text := (cs.filter (· ≠ '_')).map Char.toLower
  if text.isEmpty then .error .emptyNumeral
  else
    let (negative, digits) := splitSign text
    let x ←
      if digits = ".inf".toList then .ok (.infinite false)
      else if digits = ".nan".toList then .ok .nan
      else if digits.contains ':' then do
        let parts ← (Text.cut ':' digits).mapM fractionOf
        sixtiesFrom (.ofInt 0) 1 parts.reverse
      else fractionOf digits
    return if negative then x.negate else x

end ApiTypes.Yaml

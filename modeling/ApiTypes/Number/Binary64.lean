/-!
# Binary64 numbers

* `Binary64` : a double-precision value, as a sign, a significand and a binary exponent;
* `Binary64.round` : the value nearest to a fraction, a tie going to the even significand;
* `Binary64.ofDecimal` : the value of a decimal numeral;
* `Binary64.add`, `Binary64.mul` : the sum and the product of finite values;
* `Binary64.isZero`, `Binary64.compare?`, `Binary64.compareInt?` : comparison with exact values.

A finite value is `±significand · 2 ^ exponent` with `significand < 2 ^ 53` and
`-1074 ≤ exponent`, where `exponent = -1074` unless `2 ^ 52 ≤ significand`; every number has
exactly one such form, so equality of forms is equality of numbers (the two zeros apart).
-/

namespace ApiTypes

inductive Binary64 where
  | nan
  | infinite (negative : Bool)
  | finite (negative : Bool) (significand : Nat) (exponent : Int)
  deriving DecidableEq, Repr, Inhabited

namespace Binary64

/-- The least exponent of a finite value. -/
def minExponent : Int := -1074

/-- The greatest exponent of a finite value. -/
def maxExponent : Int := 971

/-- A power of two. -/
def twoTo (n : Nat) : Nat := Nat.pow 2 n

/-- A power of ten. -/
def tenTo (n : Nat) : Nat := Nat.pow 10 n

/-- The quotient of two natural numbers to the nearest whole number, a half to the even one. -/
def nearestEven (num den : Nat) : Nat :=
  let q := num / den
  let r := num % den
  if 2 * r < den then q else if den < 2 * r then q + 1 else q + q % 2

/-- The fraction `num / den` in units of `2 ^ exponent`, as a fraction. -/
def scaled (num den : Nat) (exponent : Int) : Nat × Nat :=
  (num * twoTo (-exponent).toNat, den * twoTo exponent.toNat)

/-- The exponent at which a positive fraction has a significand of 53 bits, or the least exponent
if there it has fewer. -/
def exponentFor (num den : Nat) : Int :=
  let guess : Int := num.log2 - den.log2 - 53
  let (n, d) := scaled num den guess
  let steps : Int := if n < twoTo 53 * d then 0 else 1
  max minExponent (guess + steps)

/-- The value nearest to `±num / den`; beyond the greatest finite value it is infinite. -/
def round (negative : Bool) (num den : Nat) : Binary64 :=
  if num = 0 then .finite negative 0 minExponent
  else
    let e := exponentFor num den
    let (n, d) := scaled num den e
    let m := nearestEven n d
    let (m, e) := if m = twoTo 53 then (twoTo 52, e + 1) else (m, e)
    if maxExponent < e then .infinite negative else .finite negative m e

/-- The number of decimal digits of a positive number. -/
def digitCount (n : Nat) : Nat := (Nat.toDigits 10 n).length

/-- The value nearest to `±digits · 10 ^ exponent`. Numerals far outside the range of finite values
are settled by their size alone. -/
def ofDecimal (negative : Bool) (digits : Nat) (exponent : Int) : Binary64 :=
  let size : Int := digitCount digits + exponent
  if digits = 0 then .finite negative 0 minExponent
  else if 310 < size then .infinite negative
  else if size < -400 then .finite negative 0 minExponent
  else round negative (digits * tenTo exponent.toNat) (tenTo (-exponent).toNat)

/-- The value nearest to a whole number. -/
def ofInt (n : Int) : Binary64 := round (n < 0) n.natAbs 1

def isZero : Binary64 → Bool
  | .finite _ m _ => m = 0
  | _ => false

/-- A finite value as a fraction of whole numbers. -/
def fraction (negative : Bool) (significand : Nat) (exponent : Int) : Int × Nat :=
  let n : Nat := significand * twoTo exponent.toNat
  (if negative then -n else n, twoTo (-exponent).toNat)

/-- Order of two values; a value that is no number compares with nothing. -/
def compare? : Binary64 → Binary64 → Option Ordering
  | .nan, _ | _, .nan => none
  | .infinite a, .infinite b => some (compare b a)
  | .infinite a, .finite .. => some (if a then .lt else .gt)
  | .finite .., .infinite b => some (if b then .gt else .lt)
  | .finite a m e, .finite b n f =>
    let x := fraction a m e
    let y := fraction b n f
    some (compare (x.1 * y.2) (y.1 * x.2))

def compareInt? : Binary64 → Int → Option Ordering
  | .nan, _ => none
  | .infinite a, _ => some (if a then .lt else .gt)
  | .finite a m e, k =>
    let x := fraction a m e
    some (compare x.1 (k * x.2))

def negate : Binary64 → Binary64
  | .nan => .nan
  | .infinite s => .infinite !s
  | .finite s m e => .finite (!s) m e

/-! ## Arithmetic -/

/-- The value nearest to a fraction with a sign. -/
def ofFraction (num : Int) (den : Nat) : Binary64 := round (num < 0) num.natAbs den

/-- The sum of two finite values; there is none of others. -/
def add : Binary64 → Binary64 → Binary64
  | .finite a m e, .finite b n f =>
    let x := fraction a m e
    let y := fraction b n f
    ofFraction (x.1 * y.2 + y.1 * x.2) (x.2 * y.2)
  | _, _ => .nan

/-- The product of two finite values; there is none of others. -/
def mul : Binary64 → Binary64 → Binary64
  | .finite a m e, .finite b n f =>
    let x := fraction a m e
    let y := fraction b n f
    round (a != b) (x.1.natAbs * y.1.natAbs) (x.2 * y.2)
  | _, _ => .nan

end Binary64
end ApiTypes

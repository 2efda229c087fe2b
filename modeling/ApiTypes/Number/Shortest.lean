import ApiTypes.Number.Binary64

/-!
# The shortest decimal text of a number

* `Binary64.interval` : the decimals that read back as a given value, as a range of fractions;
* `Binary64.shortest` : the fewest digits in that range, and of those the nearest to the value;
* `Binary64.text` : the written form, positional from `0.0001` up to `10 ^ 16`.
-/

namespace ApiTypes.Binary64

/-- The fractions `low / den`, `value / den` and `high / den` around a finite positive value: a
decimal between the outer two reads back as the value, the ends included when the significand is
even. Below a power of two the gap to the neighbour is half as wide. -/
structure Interval where
  low : Nat
  value : Nat
  high : Nat
  den : Nat
  closed : Bool

def interval (m : Nat) (e : Int) : Interval :=
  let up := twoTo e.toNat
  let down := if m = twoTo 52 ∧ minExponent < e then 1 else 2
  { low := (4 * m - down) * up
    value := 4 * m * up
    high := (4 * m + 2) * up
    den := 4 * twoTo (-e).toNat
    closed := m % 2 = 0 }

/-- Whether the fraction `num / den` lies in the interval. -/
def Interval.has (r : Interval) (num den : Nat) : Bool :=
  if r.closed then r.low * den ≤ num * r.den ∧ num * r.den ≤ r.high * den
  else r.low * den < num * r.den ∧ num * r.den < r.high * den

/-- The position of the decimal point of a positive fraction: the `p` with
`10 ^ (p - 1) ≤ num / den < 10 ^ p`, searched downwards from a bound. -/
def pointBelow (num den : Nat) : Nat → Int → Int
  | 0, p => p
  | fuel + 1, p =>
    let q := p - 1
    if tenTo q.toNat * den ≤ num * tenTo (-q).toNat then p else pointBelow num den fuel q

def pointOf (num den : Nat) : Int := pointBelow num den 640 310

/-- The multiple of `10 ^ g` nearest to the value among its two neighbours that lie in the
interval, an exact tie going to the even multiple. -/
def nearestOnGrid (r : Interval) (g : Int) : Option Nat :=
  let unit := tenTo g.toNat
  let scale := tenTo (-g).toNat
  let num := r.value * scale
  let den := r.den * unit
  let k := num / den
  let rest := num % den
  let below := r.has (k * unit) scale && k ≠ 0
  let above := r.has ((k + 1) * unit) scale
  if below && above then
    some (if 2 * rest < den then k else if den < 2 * rest then k + 1 else k + k % 2)
  else if below then some k
  else if above then some (k + 1)
  else none

/-- The first grid, from one digit upwards, with a point in the interval. -/
def firstGrid (r : Interval) (p : Int) : Nat → Nat → Nat × Int
  | 0, _ => (r.value / r.den, 0)
  | fuel + 1, count =>
    let g := p - count
    match nearestOnGrid r g with
    | some k => (k, g)
    | none => firstGrid r p fuel (count + 1)

/-- The digits and the exponent of the shortest decimal that reads back as a positive value. -/
def shortest (m : Nat) (e : Int) : List Char × Int :=
  let r := interval m e
  let (k, g) := firstGrid r (pointOf r.value r.den) 18 1
  let digits := Nat.toDigits 10 k
  let kept := (digits.reverse.dropWhile (· == '0')).reverse
  (kept, g + (digits.length - kept.length : Nat))

/-- An exponent with its sign and at least two digits. -/
def exponentText (e : Int) : List Char :=
  let digits := Nat.toDigits 10 e.natAbs
  (if e < 0 then '-' else '+') :: (if digits.length < 2 then '0' :: digits else digits)

/-- Digits and exponent as text: positional from `0.0001` up to `10 ^ 16`, with at least one digit
after the point, and in exponent form elsewhere. -/
def layout (digits : List Char) (exponent : Int) : List Char :=
  let point : Int := digits.length + exponent
  if -4 < point ∧ point ≤ 16 then
    if point ≤ 0 then
      '0' :: '.' :: (List.replicate (-point).toNat '0' ++ digits)
    else
      let whole := digits.take point.toNat
      let rest := digits.drop point.toNat
      whole ++ List.replicate (point.toNat - whole.length) '0' ++
        '.' :: (if rest.isEmpty then ['0'] else rest)
  else
    let fraction := digits.drop 1
    digits.take 1 ++ (if fraction.isEmpty then [] else '.' :: fraction) ++
      'e' :: exponentText (point - 1)

/-- The written form of a number. -/
def text : Binary64 → String
  | .nan => "nan"
  | .infinite s => if s then "-inf" else "inf"
  | .finite s m e =>
    let body := if m = 0 then ['0', '.', '0'] else
      let (digits, exponent) := shortest m e
      layout digits exponent
    String.ofList (if s then '-' :: body else body)

end ApiTypes.Binary64

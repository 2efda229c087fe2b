import ApiTypes.Text.Utf8

/-!
# Percent escapes

* `Percent.decode` : a text with its percent escapes undone. The bytes that escapes and ASCII
  characters stand for are read as UTF-8; an escape without two hexadecimal digits stays.
-/

namespace ApiTypes.Percent

/-- The value of a hexadecimal digit. -/
def hexValue? (c : Char) : Option Nat :=
  if c.isDigit then some (c.toNat - '0'.toNat)
  else if 'a' ≤ c ∧ c ≤ 'f' then some (c.toNat - 'a'.toNat + 10)
  else if 'A' ≤ c ∧ c ≤ 'F' then some (c.toNat - 'A'.toNat + 10)
  else none

/-- The byte of an escape's two digits. -/
def byte? (high low : Char) : Option UInt8 := do
  let h ← hexValue? high
  let l ← hexValue? low
  return UInt8.ofNat (16 * h + l)

/-- A character that is no escape. -/
def unit (c : Char) : UInt8 ⊕ Char :=
  if c.toNat < 0x80 then .inl (UInt8.ofNat c.toNat) else .inr c

/-- Bytes and characters of a text. -/
def units : List Char → List (UInt8 ⊕ Char)
  | '%' :: h :: l :: rest =>
    match byte? h l with
    | some b => .inl b :: units rest
    | none => unit '%' :: units (h :: l :: rest)
  | c :: rest => unit c :: units rest
  | [] => []

def decode (cs : List Char) : List Char := Utf8.decodeLossy (units cs)

end ApiTypes.Percent

/-!
# UTF-8

* `Utf8.Pending`, `Utf8.step` : decoding one byte after another;
* `Utf8.decodeUnits` : bytes mixed with characters, each broken sequence as `none`;
* `Utf8.decode?` : the text of a byte sequence, if no sequence in it is broken;
* `Utf8.decodeLossy` : the text with the replacement character for each broken sequence.

A sequence breaks at the first byte that cannot continue it; that byte starts the next one.
-/

namespace ApiTypes.Utf8

/-- A begun character: the bits so far, the bytes still owed, and the range of the next byte. -/
structure Pending where
  bits : Nat
  owed : Nat
  low : Nat
  high : Nat

/-- What follows a lead byte: a whole character, a begun one, or nothing it could lead. -/
def lead (b : Nat) : Option Char × Option Pending :=
  if b < 0x80 then (some (Char.ofNat b), none)
  else if b < 0xc2 then (none, none)
  else if b < 0xe0 then (none, some ⟨b - 0xc0, 1, 0x80, 0xbf⟩)
  else if b < 0xf0 then
    (none, some ⟨b - 0xe0, 2, if b = 0xe0 then 0xa0 else 0x80, if b = 0xed then 0x9f else 0xbf⟩)
  else if b < 0xf5 then
    (none, some ⟨b - 0xf0, 3, if b = 0xf0 then 0x90 else 0x80, if b = 0xf4 then 0x8f else 0xbf⟩)
  else (none, none)

/-- The characters that a lead byte completes, a broken one as `none`, and the begun one. -/
def start (b : Nat) : List (Option Char) × Option Pending :=
  match lead b with
  | (some c, _) => ([some c], none)
  | (none, some p) => ([], some p)
  | (none, none) => ([none], none)

def step (pending : Option Pending) (b : Nat) : List (Option Char) × Option Pending :=
  match pending with
  | none => start b
  | some p =>
    if p.low ≤ b ∧ b ≤ p.high then
      let bits := 64 * p.bits + (b - 0x80)
      if p.owed = 1 then ([some (Char.ofNat bits)], none)
      else ([], some ⟨bits, p.owed - 1, 0x80, 0xbf⟩)
    else
      let (done, next) := start b
      (none :: done, next)

/-- What an end of the bytes leaves of a begun character. -/
def flush : Option Pending → List (Option Char)
  | none => []
  | some _ => [none]

def decodeUnits (pending : Option Pending) : List (UInt8 ⊕ Char) → List (Option Char)
  | [] => flush pending
  | .inl b :: rest =>
    let (done, next) := step pending b.toNat
    done ++ decodeUnits next rest
  | .inr c :: rest => flush pending ++ some c :: decodeUnits none rest

def decode? (bytes : List UInt8) : Option String :=
  ((decodeUnits none (bytes.map .inl)).mapM id).map String.ofList

/-- The characters of bytes and characters, broken sequences replaced by `U+FFFD`. -/
def decodeLossy (units : List (UInt8 ⊕ Char)) : List Char :=
  (decodeUnits none units).map fun c => c.getD (Char.ofNat 0xfffd)

end ApiTypes.Utf8

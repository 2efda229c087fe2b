/-!
# Letter case of Latin words

* `Text.isWordChar` : ASCII letters and digits, and the block from `À` to `ſ`;
* `Text.lower`, `Text.upper` : the case mappings, which may turn one character into two;
* `Text.lowerAll` : a text in lower case.

The mappings are those of all characters of that block, of ASCII, and of the three characters
outside whose lower case lies inside (the Kelvin and Ångström signs and the capital `ẞ`). Other
characters are left alone: no word holds them, in either case.
-/

namespace ApiTypes.Text

def isWordChar (c : Char) : Bool :=
  c.isAlphanum || ('À' ≤ c && c ≤ 'ſ')

/-- Where the capitals of the block from `Ā` stand at even code points, each before its small
letter. -/
def evenCapitals (n : Nat) : Bool :=
  (0x100 ≤ n && n ≤ 0x12f) || (0x132 ≤ n && n ≤ 0x137) || (0x14a ≤ n && n ≤ 0x177)

/-- Where they stand at odd code points. -/
def oddCapitals (n : Nat) : Bool :=
  (0x139 ≤ n && n ≤ 0x148) || (0x179 ≤ n && n ≤ 0x17e)

def lower (c : Char) : List Char :=
  let n := c.toNat
  if c.isUpper then [c.toLower]
  else if n < 0xc0 then [c]
  else if n ≤ 0xde then [if n = 0xd7 then c else Char.ofNat (n + 0x20)]
  else if n < 0x100 then [c]
  else if n = 0x130 then ['i', Char.ofNat 0x307]
  else if n = 0x178 then ['ÿ']
  else if evenCapitals n then [if n % 2 = 0 then Char.ofNat (n + 1) else c]
  else if oddCapitals n then [if n % 2 = 1 then Char.ofNat (n + 1) else c]
  else if n = 0x1e9e then ['ß']
  else if n = 0x212a then ['k']
  else if n = 0x212b then ['å']
  else [c]

def upper (c : Char) : List Char :=
  let n := c.toNat
  if c.isLower then [c.toUpper]
  else if n < 0xdf then [c]
  else if n = 0xdf then ['S', 'S']
  else if n < 0xff then [if n = 0xf7 then c else Char.ofNat (n - 0x20)]
  else if n = 0xff then ['Ÿ']
  else if n = 0x131 then ['I']
  else if n = 0x149 then [Char.ofNat 0x2bc, 'N']
  else if n = 0x17f then ['S']
  else if evenCapitals n then [if n % 2 = 1 then Char.ofNat (n - 1) else c]
  else if oddCapitals n then [if n % 2 = 0 then Char.ofNat (n - 1) else c]
  else [c]

def lowerAll (cs : List Char) : List Char := cs.flatMap lower

end ApiTypes.Text

/-!
# Tables of code points

* `Text.inRanges` : membership of a character in a table of code point ranges.
-/

namespace ApiTypes.Text

def inRanges (ranges : List (Nat × Nat)) (c : Char) : Bool :=
  ranges.any fun r => r.1 ≤ c.toNat && c.toNat ≤ r.2

end ApiTypes.Text

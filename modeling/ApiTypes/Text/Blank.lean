import ApiTypes.Text.Ranges

/-!
# Blank characters

* `Text.isBlank` : separators of words and lines;
* `Text.isBlankText` : texts of nothing else.
-/

namespace ApiTypes.Text

/-- The blank code points. -/
def blanks : List (Nat × Nat) := [
    (0x9, 0xd), (0x1c, 0x20), (0x85, 0x85), (0xa0, 0xa0), (0x1680, 0x1680), (0x2000, 0x200a),
    (0x2028, 0x2029), (0x202f, 0x202f), (0x205f, 0x205f), (0x3000, 0x3000)]

def isBlank (c : Char) : Bool := inRanges blanks c

def isBlankText (s : String) : Bool := s.toList.all isBlank

end ApiTypes.Text

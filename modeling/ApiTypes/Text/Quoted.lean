import ApiTypes.Text.Printable

/-!
# Quoted texts

* `Text.quoted` : a text between single quotes as source code, a backslash before each quote and
  each backslash;
* `Text.unescape` : the text that escapes stand for;
* `Text.shown` : a text as it is shown inside lists and messages, with the quote that needs fewer
  escapes and every character without a printed shape as a number.
-/

namespace ApiTypes.Text

/-! ## Source literals -/

/-- A backslash before each backslash and each single quote. -/
def escape : List Char → List Char
  | [] => []
  | c :: rest => if c = '\\' ∨ c = '\'' then '\\' :: c :: escape rest else c :: escape rest

/-- The text between the quotes with every backslash taken off the character after it. -/
def unescape : List Char → List Char
  | '\\' :: c :: rest => c :: unescape rest
  | c :: rest => c :: unescape rest
  | [] => []

theorem unescape_escape (cs : List Char) : unescape (escape cs) = cs := by
  induction cs with
  | nil => rfl
  | cons c rest ih =>
    by_cases h : c = '\\' ∨ c = '\''
    · simp [escape, h, unescape, ih]
    · have hb : c ≠ '\\' := fun e => h (Or.inl e)
      simp only [escape, h, if_false]
      rw [unescape]
      · rw [ih]
      · intro d r hc; exact absurd hc hb

def quoted (s : String) : String := String.ofList ('\'' :: (escape s.toList ++ ['\'']))

/-! ## Shown texts -/

/-- The hexadecimal digits of a number, filled up with zeros from the left. -/
def hex (width n : Nat) : List Char :=
  let digits := Nat.toDigits 16 n
  List.replicate (width - digits.length) '0' ++ digits

/-- A character between quotes of one kind. -/
def shownChar (quote c : Char) : List Char :=
  if c = quote ∨ c = '\\' then ['\\', c]
  else if c = '\n' then ['\\', 'n']
  else if c = '\r' then ['\\', 'r']
  else if c = '\t' then ['\\', 't']
  else if isPrintable c then [c]
  else if c.toNat < 0x100 then '\\' :: 'x' :: hex 2 c.toNat
  else if c.toNat < 0x10000 then '\\' :: 'u' :: hex 4 c.toNat
  else '\\' :: 'U' :: hex 8 c.toNat

/-- A text between single quotes, or between double ones if it holds single quotes only. -/
def shown (s : String) : String :=
  let cs := s.toList
  let quote := if cs.contains '\'' && !cs.contains '"' then '"' else '\''
  String.ofList (quote :: (cs.flatMap (shownChar quote) ++ [quote]))

end ApiTypes.Text

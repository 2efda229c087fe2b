import ApiTypes.Proofs.Nesting
import ApiTypes.Proofs.QuotedTexts

/-!
# What literals of the source stand for

* `Source.units` : the code units of a character;
* `Source.State`, `Source.step` : one character of a literal, read after those before it, with the
  escapes of the language;
* `Source.read` : what stands between the quotes of a literal, as code units;
* `Source.Denotes` : a text between single quotes that stands for a text;
* `Source.denotes_between` : a text between quotes as it is stands for itself just where it has no
  quote, backslash or line break;
* `Source.member_denotes` : a member name is an identifier or a literal of itself just where it has
  no line break.
-/

namespace ApiTypes.Source

/-! ## Code units -/

/-- The code units of a number that stands for a character. -/
def unitsOf (n : Nat) : List Nat :=
  if n < 0x10000 then [n] else [0xd800 + (n - 0x10000) / 0x400, 0xdc00 + (n - 0x10000) % 0x400]

def units (c : Char) : List Nat := unitsOf c.toNat

theorem length_unitsOf (n : Nat) : 1 ≤ (unitsOf n).length ∧ (unitsOf n).length ≤ 2 := by
  unfold unitsOf
  split <;> simp

/-! ## Reading -/

/-- What a reader of a literal has met: a text, a backslash, the escape of zero, which no digit may
follow, a backslash and a carriage return, to which a line feed belongs, or the beginning of an
escape by a number: up to its `u`, up to some digits of which more have to follow, or up to its
brace and the digits after it. -/
inductive State
  | text
  | escape
  | zero
  | carriage
  | unicode
  | digits (left value : Nat)
  | braces (value : Option Nat)

/-- Whether a literal can end there. -/
def State.isEnd : State → Bool
  | text | zero | carriage => true
  | _ => false

/-- The value of a hexadecimal digit. -/
def hexDigit? (c : Char) : Option Nat :=
  if c.isDigit then some (c.toNat - '0'.toNat)
  else if 'a' ≤ c ∧ c ≤ 'f' then some (c.toNat - 'a'.toNat + 10)
  else if 'A' ≤ c ∧ c ≤ 'F' then some (c.toNat - 'A'.toNat + 10)
  else none

/-- The letters that stand for other characters after a backslash. -/
def letterEscapes : List (Char × Nat) :=
  [('b', 8), ('t', 9), ('n', 10), ('v', 11), ('f', 12), ('r', 13)]

/-- The characters that may not stand in a literal by themselves. -/
def isBarred (c : Char) : Bool := c = '\'' || c = '\n' || c = '\r'

/-- The line ends that a backslash takes out of a literal, but for the carriage return. -/
def isLineEnd (c : Char) : Bool := c = '\n' || c.toNat = 0x2028 || c.toNat = 0x2029

def stepText (c : Char) : Option (List Nat × State) :=
  if c = '\\' then some ([], .escape)
  else if isBarred c then none
  else some (units c, .text)

def stepEscape (c : Char) : Option (List Nat × State) :=
  if c = 'u' then some ([], .unicode)
  else if c = 'x' then some ([], .digits 2 0)
  else if c = '0' then some ([0], .zero)
  else if c.isDigit then none
  else if c = '\r' then some ([], .carriage)
  else if isLineEnd c then some ([], .text)
  else some (((letterEscapes.lookup c).map fun n => [n]).getD (units c), .text)

/-- One more digit of an escape that has some left. -/
def stepDigit (left value : Nat) (c : Char) : Option (List Nat × State) :=
  (hexDigit? c).map fun d =>
    if left ≤ 1 then ([16 * value + d], .text) else ([], .digits (left - 1) (16 * value + d))

/-- One more digit between braces, or the brace that ends them. -/
def stepBraces (value : Option Nat) (c : Char) : Option (List Nat × State) :=
  if c = '\x7d' then value.map fun n => (unitsOf n, .text)
  else (hexDigit? c).bind fun d =>
    let n := 16 * value.getD 0 + d
    if n < 0x110000 then some ([], .braces (some n)) else none

def step : State → Char → Option (List Nat × State)
  | .text, c => stepText c
  | .escape, c => stepEscape c
  | .zero, c => if c.isDigit then none else stepText c
  | .carriage, c => if c = '\n' then some ([], .text) else stepText c
  | .unicode, c => if c = '\x7b' then some ([], .braces none) else stepDigit 4 0 c
  | .digits left value, c => stepDigit left value c
  | .braces value, c => stepBraces value c

/-- The code units that a literal stands for, from what stands between its quotes. -/
def read : State → List Char → Option (List Nat)
  | s, [] => if s.isEnd then some [] else none
  | s, c :: rest => (step s c).bind fun r => (read r.2 rest).map (r.1 ++ ·)

/-- A text between single quotes that stands for a text. -/
def Denotes (text s : String) : Prop :=
  ∃ body, text.toList = '\'' :: (body ++ ['\'']) ∧ read .text body = some (s.toList.flatMap units)

section
variable {s next : State} {c : Char} {rest : List Char} {us : List Nat}

theorem read_cons (h : read s (c :: rest) = some us) :
    ∃ vs next more, step s c = some (vs, next) ∧ read next rest = some more ∧ vs ++ more = us := by
  obtain ⟨⟨vs, next⟩, hstep, h⟩ := Option.bind_eq_some_iff.1 h
  obtain ⟨more, hmore, h⟩ := Option.map_eq_some_iff.1 h
  exact ⟨vs, next, more, hstep, hmore, h⟩

theorem read_of_step (h : step s c = some (us, next)) :
    read s (c :: rest) = (read next rest).map (us ++ ·) := by
  rw [read, h]
  rfl

end

/-! ## Escapes make texts shorter -/

/-- How many more code units than characters a state may yet give: a number between braces stands
for two by its last brace. -/
def State.spare : State → Nat
  | .braces _ => 1
  | _ => 0

section
variable {s next : State} {c : Char} {us : List Nat}

theorem length_units (c : Char) : 1 ≤ (units c).length := (length_unitsOf c.toNat).1

/-- A character of a text is a backslash, or it is read as itself unless it is barred. -/
theorem stepText_cases (h : stepText c = some (us, next)) :
    (c = '\\' ∧ us = [] ∧ next = .escape) ∨
      (c ≠ '\\' ∧ isBarred c = false ∧ us = units c ∧ next = .text) := by
  unfold stepText at h
  split at h
  · rename_i hc
    obtain ⟨rfl, rfl⟩ := Prod.mk.inj (Option.some.inj h)
    exact .inl ⟨hc, rfl, rfl⟩
  · rename_i hc
    split at h
    · cases h
    · rename_i hbarred
      obtain ⟨rfl, rfl⟩ := Prod.mk.inj (Option.some.inj h)
      exact .inr ⟨hc, by simpa using hbarred, rfl, rfl⟩

theorem stepText_length (h : stepText c = some (us, next)) :
    us.length + next.spare ≤ (units c).length := by
  rcases stepText_cases h with ⟨-, rfl, rfl⟩ | ⟨-, -, rfl, rfl⟩
  · exact Nat.zero_le _
  · exact Nat.le_refl _

theorem stepEscape_length (h : stepEscape c = some (us, next)) :
    us.length + next.spare ≤ (units c).length := by
  have hone := length_units c
  have hletter : (((letterEscapes.lookup c).map fun n => [n]).getD (units c)).length ≤
      (units c).length := by
    cases letterEscapes.lookup c with
    | none => exact Nat.le_refl _
    | some n => exact hone
  unfold stepEscape at h
  repeat' split at h
  all_goals cases h
  all_goals first | exact hletter | exact hone | exact Nat.zero_le _

theorem stepDigit_length {left value : Nat} (h : stepDigit left value c = some (us, next)) :
    us.length + next.spare ≤ (units c).length := by
  have hone := length_units c
  obtain ⟨d, -, h⟩ := Option.map_eq_some_iff.1 h
  split at h
  all_goals obtain ⟨rfl, rfl⟩ := Prod.mk.inj h
  · exact hone
  · exact Nat.zero_le _

theorem stepBraces_length {value : Option Nat} (h : stepBraces value c = some (us, next)) :
    us.length + next.spare ≤ (units c).length + 1 := by
  have hone := length_units c
  unfold stepBraces at h
  split at h
  · obtain ⟨n, -, h⟩ := Option.map_eq_some_iff.1 h
    obtain ⟨rfl, rfl⟩ := Prod.mk.inj h
    exact Nat.le_trans (length_unitsOf n).2 (Nat.succ_le_succ hone)
  · obtain ⟨d, -, h⟩ := Option.bind_eq_some_iff.1 h
    dsimp only at h
    split at h
    · obtain ⟨rfl, rfl⟩ := Prod.mk.inj (Option.some.inj h)
      exact Nat.succ_le_succ (Nat.zero_le _)
    · cases h

/-- No character stands for more code units than it has, but for the brace that ends an escape. -/
theorem step_length (h : step s c = some (us, next)) :
    us.length + next.spare ≤ (units c).length + s.spare := by
  have hone := length_units c
  cases s with
  | text => exact stepText_length h
  | escape => exact stepEscape_length h
  | zero =>
    rw [step] at h
    split at h
    · cases h
    · exact stepText_length h
  | carriage =>
    rw [step] at h
    split at h
    · obtain ⟨rfl, rfl⟩ := Prod.mk.inj (Option.some.inj h)
      exact Nat.zero_le _
    · exact stepText_length h
  | unicode =>
    rw [step] at h
    split at h
    · obtain ⟨rfl, rfl⟩ := Prod.mk.inj (Option.some.inj h)
      exact hone
    · exact stepDigit_length h
  | digits left value => exact stepDigit_length h
  | braces value => exact stepBraces_length h

/-- Nor does a literal. -/
theorem read_length {cs : List Char} (h : read s cs = some us) :
    us.length ≤ (cs.flatMap units).length + s.spare := by
  induction cs generalizing s us with
  | nil =>
    rw [read] at h
    split at h
    · obtain rfl := Option.some.inj h
      exact Nat.zero_le _
    · cases h
  | cons c rest ih =>
    obtain ⟨vs, next, more, hstep, hmore, rfl⟩ := read_cons h
    have hfirst := step_length hstep
    have hlater := ih hmore
    rw [List.flatMap_cons, List.length_append, List.length_append]
    omega

end

/-! ## Texts as they are -/

/-- A text between quotes is read as itself just where each of its characters is. -/
theorem read_self {cs : List Char} : read .text cs = some (cs.flatMap units) ↔
    ∀ c ∈ cs, c ≠ '\\' ∧ isBarred c = false := by
  induction cs with
  | nil => exact iff_of_true rfl (by simp)
  | cons c rest ih =>
    rw [List.forall_mem_cons, List.flatMap_cons]
    constructor
    · intro h
      obtain ⟨vs, next, more, hstep, hmore, hunits⟩ := read_cons h
      rcases stepText_cases hstep with ⟨rfl, rfl, rfl⟩ | ⟨hslash, hbarred, rfl, rfl⟩
      · -- a backslash stands for nothing by itself, and what follows for no more than it has
        have hlater := read_length hmore
        have hlength := congrArg List.length hunits
        have hone := length_units '\\'
        simp only [List.length_append, List.length_nil, State.spare] at hlater hlength
        omega
      · obtain rfl := List.append_cancel_left hunits
        exact ⟨⟨hslash, hbarred⟩, ih.1 hmore⟩
    · rintro ⟨⟨hslash, hbarred⟩, hrest⟩
      have hstep : step .text c = some (units c, .text) := by
        rw [step, stepText, if_neg hslash, if_neg (by simp [hbarred])]
      rw [read_of_step hstep, ih.2 hrest, Option.map_some]

/-! ## Escaped texts -/

/-- After a backslash, a quote and a backslash are read as themselves. -/
theorem step_escaped {c : Char} (h : c = '\\' ∨ c = '\'') :
    step .escape c = some (units c, .text) := by
  rcases h with rfl | rfl <;> rfl

/-- A text with its quotes and backslashes escaped is read as itself just where it has no line
break. -/
theorem read_escape {cs : List Char} : read .text (Text.escape cs) = some (cs.flatMap units) ↔
    '\n' ∉ cs ∧ '\r' ∉ cs := by
  induction cs with
  | nil => exact iff_of_true rfl (by simp)
  | cons c rest ih =>
    have hcancel : (read .text (Text.escape rest)).map (units c ++ ·) =
        some ((c :: rest).flatMap units) ↔ '\n' ∉ rest ∧ '\r' ∉ rest := by
      rw [← ih, List.flatMap_cons, Option.map_eq_some_iff]
      constructor
      · rintro ⟨us, hus, heq⟩
        rw [hus, List.append_cancel_left heq]
      · exact fun h => ⟨_, h, rfl⟩
    rw [Text.escape]
    by_cases hc : c = '\\' ∨ c = '\''
    · have hbreak : '\n' ≠ c ∧ '\r' ≠ c := by
        rcases hc with rfl | rfl <;> decide
      have hslash : step .text '\\' = some ([], .escape) := rfl
      rw [if_pos hc, read_of_step hslash, read_of_step (step_escaped hc), Option.map_map]
      simpa [hbreak.1, hbreak.2] using hcancel
    · obtain ⟨hslash, hquote⟩ := not_or.1 hc
      rw [if_neg hc]
      by_cases hbreak : c = '\n' ∨ c = '\r'
      · have hstep : step .text c = none := by
          rcases hbreak with rfl | rfl <;> rfl
        refine iff_of_false ?_ ?_
        · rw [read, hstep]
          simp
        · rcases hbreak with rfl | rfl <;> simp
      · obtain ⟨hfeed, hreturn⟩ := not_or.1 hbreak
        have hstep : step .text c = some (units c, .text) := by
          rw [step, stepText, if_neg hslash, if_neg (by simp [isBarred, hquote, hfeed, hreturn])]
        rw [read_of_step hstep]
        simpa [Ne.symm hfeed, Ne.symm hreturn] using hcancel

/-! ## Literals -/

theorem denotes_iff {text s : String} (body : List Char)
    (h : text.toList = '\'' :: (body ++ ['\''])) :
    Denotes text s ↔ read .text body = some (s.toList.flatMap units) := by
  constructor
  · rintro ⟨body', htext, hread⟩
    obtain rfl : body = body' := by simpa [h] using htext
    exact hread
  · exact fun hread => ⟨body, h, hread⟩

/-- A text between quotes as it is stands for itself just where it has no quote, backslash or line
break. -/
theorem denotes_between (s : String) : Denotes ("'" ++ s ++ "'") s ↔
    ∀ c ∈ s.toList, c ≠ '\\' ∧ c ≠ '\'' ∧ c ≠ '\n' ∧ c ≠ '\r' := by
  rw [denotes_iff s.toList (by simp), read_self]
  simp [isBarred, and_assoc]

theorem denotes_quoted (s : String) :
    Denotes (Text.quoted s) s ↔ '\n' ∉ s.toList ∧ '\r' ∉ s.toList := by
  rw [denotes_iff (Text.escape s.toList) (by rw [Text.quoted, String.toList_ofList]),
    read_escape]

theorem no_breaks_of_isIdentifier {cs : List Char} (h : Name.isIdentifier cs = true) :
    '\n' ∉ cs ∧ '\r' ∉ cs := by
  have hchars := Name.isIdentifierChar_of_mem h
  exact ⟨fun h => absurd (hchars _ h) (by decide), fun h => absurd (hchars _ h) (by decide)⟩

theorem dropFinalBreak_eq {cs : List Char} (h : '\n' ∉ cs) : Name.dropFinalBreak cs = cs :=
  if_neg fun hlast => h (List.mem_of_getLast? hlast)

/-- A member name is an identifier or a literal of itself just where it has no line break. -/
theorem member_denotes (key : String) :
    (Name.isIdentifier key.toList = true ∧ Name.member key = key ∨ Denotes (Name.member key) key) ↔
      '\n' ∉ key.toList ∧ '\r' ∉ key.toList := by
  rcases Name.member_cases key with ⟨hbare, hmember⟩ | ⟨hother, hmember⟩
  · rw [hmember]
    constructor
    · rintro (⟨hidentifier, -⟩ | ⟨body, hbody, -⟩)
      · exact no_breaks_of_isIdentifier hidentifier
      · rw [hbody, ← List.cons_append, Name.dropFinalBreak, List.getLast?_concat,
          if_neg (by decide)] at hbare
        exact absurd (Name.isIdentifierChar_of_mem hbare _ (List.mem_cons_self ..)) (by decide)
    · rintro ⟨hfeed, -⟩
      rw [dropFinalBreak_eq hfeed] at hbare
      exact .inl ⟨hbare, rfl⟩
  · rw [hmember, denotes_quoted]
    refine or_iff_right ?_
    rintro ⟨hidentifier, -⟩
    rw [dropFinalBreak_eq (no_breaks_of_isIdentifier hidentifier).1, hidentifier] at hother
    cases hother

end ApiTypes.Source

import ApiTypes.Proofs.NameChars

/-!
# Which names are identifiers

* `Name.isValid` : identifiers, over the characters that names are made of;
* `Name.beginsWell`, `Name.beginsBadly` : names that begin as an identifier does, or with a digit or
  a sign;
* `Name.beginsWord` : texts whose names begin well (`Name.beginsWell_pascal`);
* `Name.Grown` : names that are made of another one by taking its words and by adding to it, which
  begin as that does;
* `Name.isValid_iff` : a name that begins well is an identifier unless it has a sign.
-/

namespace ApiTypes.Name
open Text

/-! ## Characters of identifiers -/

/-- The multiplication and the division sign, which stand among the letters of words. -/
def isSign (c : Char) : Bool := c = '×' || c = '÷'

/-- A letter of words. -/
def isLetter (c : Char) : Bool := isWordChar c && !c.isDigit && !isSign c

/-- The characters that an identifier can begin with: letters, the underscore, the dollar sign, and
the mark that comes of `ŉ`, which counts as a letter. -/
def isStart (c : Char) : Bool := isLetter c || c = '_' || c = '$' || c = 'ʼ'

/-- The dot that stays above the letter when `İ` is taken in lower case. -/
def aboveDot : Char := Char.ofNat 0x307

/-- The characters of identifiers, of those that names are made of. -/
def isPart (c : Char) : Bool := isStart c || c.isDigit || c = aboveDot

/-- Whether a name is an identifier. -/
def isValid (n : String) : Bool :=
  match n.toList with
  | [] => false
  | c :: rest => isStart c && rest.all isPart

/-- A name without signs. -/
def NoSign (n : String) : Prop := Over (isSign · = false) n

/-! ## How names begin -/

/-- Whether a name begins with a letter, an underscore, or the mark of `ŉ` before a letter. -/
def beginsWell : List Char → Bool
  | [] => false
  | 'ʼ' :: rest => rest.head?.any isLetter
  | c :: _ => isLetter c || c = '_'

/-- Whether a name begins with a digit or a sign. -/
def beginsBadly (cs : List Char) : Bool := cs.head?.any fun c => c.isDigit || isSign c

/-- The first character of the words of a text. -/
def firstWordChar? (cs : List Char) : Option Char :=
  (if cs.any Char.isLower then cs else lowerAll cs).find? isWordChar

/-- Whether a text begins with an underscore, or its words with a letter. -/
def beginsWord (s : String) : Bool :=
  s.toList.head? = some '_' || (firstWordChar? s.toList).any isLetter

theorem isLetter_iff {c : Char} :
    isLetter c = true ↔ isWordChar c = true ∧ c.isDigit = false ∧ isSign c = false := by
  simp [isLetter, and_assoc]

theorem ne_mark_of_isLetter {c : Char} (h : isLetter c = true) : c ≠ 'ʼ' := by
  rintro rfl
  revert h
  decide

theorem beginsWell_letter {c : Char} (h : isLetter c = true) (rest : List Char) :
    beginsWell (c :: rest) = true := by
  rw [beginsWell.eq_3 _ _ (ne_mark_of_isLetter h), h, Bool.true_or]

/-- A name that begins well begins with a letter, an underscore, or the mark of `ŉ`. -/
theorem beginsWell_cases {cs : List Char} (h : beginsWell cs = true) :
    ∃ c rest, cs = c :: rest ∧
      (isLetter c = true ∨ c = '_' ∨
        (c = 'ʼ' ∧ ∃ d later, rest = d :: later ∧ isLetter d = true)) := by
  unfold beginsWell at h
  split at h
  · cases h
  · rename_i rest
    obtain ⟨d, hd, hletter⟩ := (Option.any_eq_true ..).1 h
    obtain ⟨later, rfl⟩ := List.head?_eq_some_iff.1 hd
    exact ⟨_, _, rfl, .inr (.inr ⟨rfl, d, later, rfl, hletter⟩)⟩
  · rename_i c rest _
    rcases (Bool.or_eq_true _ _).mp h with h | h
    · exact ⟨c, rest, rfl, .inl h⟩
    · exact ⟨c, rest, rfl, .inr (.inl (of_decide_eq_true h))⟩

theorem beginsWell_append {cs : List Char} (h : beginsWell cs = true) (more : List Char) :
    beginsWell (cs ++ more) = true := by
  obtain ⟨c, rest, rfl, hletter | rfl | ⟨rfl, d, later, rfl, hletter⟩⟩ := beginsWell_cases h
  · exact beginsWell_letter hletter _
  · rfl
  · simpa [beginsWell] using hletter

theorem beginsBadly_append {cs : List Char} (h : beginsBadly cs = true) (more : List Char) :
    beginsBadly (cs ++ more) = true := by
  cases cs with
  | nil => cases h
  | cons c rest => exact h

/-! ## Letters and their case -/

/-- What holds of all characters of words up to the last of them holds of each. -/
theorem forall_wordChar {p : Char → Bool}
    (h : ∀ n < 0x180, isWordChar (Char.ofNat n) = true → p (Char.ofNat n) = true) {c : Char}
    (hc : isWordChar c = true) : p c = true := by
  have hp := h c.toNat (toNat_lt_of_wordChar hc)
  rw [Char.ofNat_toNat] at hp
  exact hp hc

theorem head?_lower {c : Char} (hc : isLetter c = true) :
    ∃ d rest, lower c = d :: rest ∧ isLetter d = true := by
  have hall := forall_wordChar (p := fun c => !isLetter c || (lower c).head?.any isLetter)
    (by decide +kernel) (isLetter_iff.1 hc).1
  simp only [hc, Bool.not_true, Bool.false_or] at hall
  obtain ⟨d, hd, hletter⟩ := (Option.any_eq_true ..).1 hall
  obtain ⟨rest, hrest⟩ := List.head?_eq_some_iff.1 hd
  exact ⟨d, rest, hrest, hletter⟩

theorem isLetter_of_isLower {c : Char} (hword : isWordChar c = true) (hc : c.isLower = true) :
    isLetter c = true := by
  have hall := forall_wordChar (p := fun c => !c.isLower || isLetter c) (by decide +kernel) hword
  simpa [hc] using hall

/-- A capital begins a name well. -/
theorem beginsWell_upper {c : Char} (hc : isLetter c = true) : beginsWell (upper c) = true := by
  have hall := forall_wordChar (p := fun c => !isLetter c || beginsWell (upper c))
    (by decide +kernel) (isLetter_iff.1 hc).1
  simpa [hc] using hall

/-- Digits and signs have no case. -/
theorem caseless {c : Char} (hc : isWordChar c = true) (hletter : isLetter c = false) :
    lower c = [c] ∧ upper c = [c] ∧ (c.isDigit || isSign c) = true := by
  have hall := forall_wordChar (p := fun c => isLetter c ||
    decide (lower c = [c] ∧ upper c = [c] ∧ (c.isDigit || isSign c) = true))
    (by decide +kernel) hc
  simpa [hletter] using hall

/-! ## Names of words -/

theorem wordsFrom_begun (word : List Char) (hword : word ≠ []) (cs : List Char) :
    ∃ more ws, wordsFrom word cs = (word.reverse ++ more) :: ws := by
  induction cs generalizing word with
  | nil =>
    refine ⟨[], [], ?_⟩
    rw [wordsFrom, if_neg (by simpa using hword), List.append_nil]
  | cons c rest ih =>
    rw [wordsFrom]
    split
    · obtain ⟨more, ws, h⟩ := ih (c :: word) (by simp)
      exact ⟨c :: more, ws, by simpa using h⟩
    · exact ⟨[], wordsFrom [] rest, by rw [if_neg (by simpa using hword), List.append_nil]⟩

theorem wordsFrom_of_none {cs : List Char} (h : cs.find? isWordChar = none) :
    wordsFrom [] cs = [] := by
  induction cs with
  | nil => rfl
  | cons c rest ih =>
    have hnone := List.find?_eq_none.1 h
    rw [wordsFrom, if_neg (hnone c (List.mem_cons_self ..)), if_pos List.isEmpty_nil]
    exact ih (List.find?_eq_none.2 fun d hd => hnone d (List.mem_cons_of_mem c hd))

/-- The words of a text begin with its first character of words. -/
theorem wordsFrom_of_some {cs : List Char} {c : Char} (h : cs.find? isWordChar = some c) :
    ∃ more ws, wordsFrom [] cs = (c :: more) :: ws := by
  induction cs with
  | nil => cases h
  | cons d rest ih =>
    rw [List.find?_cons] at h
    rw [wordsFrom]
    split at h
    · rename_i hd
      obtain rfl := Option.some.inj h
      obtain ⟨more, ws, hwords⟩ := wordsFrom_begun [d] (by simp) rest
      rw [if_pos hd]
      exact ⟨more, ws, hwords⟩
    · rename_i hd
      rw [if_neg (by simp [hd]), if_pos List.isEmpty_nil]
      exact ih h

/-- The name of a text that begins with an underscore, or whose words begin with a letter, begins
well; that of another one is empty if it has no words, and begins badly if it has some. -/
theorem begins_pascal (s : String) :
    (beginsWord s = true ∧ beginsWell (pascal s).toList = true) ∨
      (beginsWord s = false ∧ firstWordChar? s.toList = none ∧ pascal s = "") ∨
      (beginsWord s = false ∧ beginsBadly (pascal s).toList = true) := by
  rw [beginsWord, firstWordChar?, pascal, String.toList_ofList, pascalChars, words]
  generalize (if s.toList.any Char.isLower then s.toList else lowerAll s.toList) = cs
  by_cases hunderscore : s.toList.head? = some '_'
  · simp [hunderscore, beginsWell]
  rw [if_neg hunderscore, decide_eq_false hunderscore, Bool.false_or]
  cases hfirst : cs.find? isWordChar with
  | none =>
    refine .inr (.inl ⟨rfl, rfl, ?_⟩)
    rw [wordsFrom_of_none hfirst]
    rfl
  | some c =>
    obtain ⟨more, ws, hwords⟩ := wordsFrom_of_some hfirst
    rw [hwords, List.flatMap_cons, capitalize, List.append_assoc, Option.any_some]
    cases hc : isLetter c with
    | true => exact .inl ⟨rfl, beginsWell_append (beginsWell_upper hc) _⟩
    | false =>
      obtain ⟨-, hupper, hbad⟩ := caseless (List.find?_some hfirst) hc
      rw [hupper]
      exact .inr (.inr ⟨rfl, by simpa [beginsBadly] using hbad⟩)

theorem firstWordChar?_letter {c : Char} (hc : isLetter c = true) (rest : List Char) :
    (firstWordChar? (c :: rest)).any isLetter = true := by
  have hword {d : Char} (hd : isLetter d = true) (more : List Char) :
      ((d :: more).find? isWordChar).any isLetter = true := by
    rw [List.find?_cons_of_pos (isLetter_iff.1 hd).1]
    exact hd
  obtain ⟨d, more, hlower, hd⟩ := head?_lower hc
  rw [firstWordChar?]
  split
  · exact hword hc rest
  · rw [lowerAll, List.flatMap_cons, hlower]
    exact hword hd _

theorem firstWordChar?_other {c : Char} (hword : isWordChar c = true) (hc : isLetter c = false)
    (rest : List Char) : firstWordChar? (c :: rest) = some c := by
  obtain ⟨hlower, -, -⟩ := caseless hword hc
  rw [firstWordChar?]
  split
  · exact List.find?_cons_of_pos hword
  · rw [lowerAll, List.flatMap_cons, hlower]
    exact List.find?_cons_of_pos hword

/-- The mark of `ŉ` is no character of words. -/
theorem firstWordChar?_mark (rest : List Char) :
    firstWordChar? ('ʼ' :: rest) = firstWordChar? rest := by
  have hmark : isWordChar 'ʼ' = false := by decide
  have hlower : lower 'ʼ' = ['ʼ'] := by decide
  have hany : ('ʼ' :: rest).any Char.isLower = rest.any Char.isLower := rfl
  have hall : lowerAll ('ʼ' :: rest) = 'ʼ' :: lowerAll rest := by
    rw [lowerAll, List.flatMap_cons, hlower]
    rfl
  rw [firstWordChar?, firstWordChar?, hany, hall]
  split
  · exact List.find?_cons_of_neg (by simp [hmark])
  · exact List.find?_cons_of_neg (by simp [hmark])

/-- A name that begins well is a text whose words do. -/
theorem beginsWord_of_beginsWell {s : String} (h : beginsWell s.toList = true) :
    beginsWord s = true := by
  rw [beginsWord, Bool.or_eq_true, decide_eq_true_eq]
  obtain ⟨c, rest, hchars, hletter | rfl | ⟨rfl, d, later, rfl, hletter⟩⟩ := beginsWell_cases h
  · rw [hchars]
    exact .inr (firstWordChar?_letter hletter rest)
  · rw [hchars]
    exact .inl rfl
  · rw [hchars, firstWordChar?_mark]
    exact .inr (firstWordChar?_letter hletter later)

theorem beginsWell_pascal {s : String} (h : beginsWell s.toList = true) :
    beginsWell (pascal s).toList = true := by
  rcases begins_pascal s with ⟨-, hwell⟩ | ⟨hword, -⟩ | ⟨hword, -⟩
  · exact hwell
  · rw [beginsWord_of_beginsWell h] at hword
    cases hword
  · rw [beginsWord_of_beginsWell h] at hword
    cases hword

/-- Digits and signs are characters of words. -/
theorem wordChar_of_bad {c : Char} (h : (c.isDigit || isSign c) = true) :
    isWordChar c = true ∧ isLetter c = false ∧ c ≠ '_' := by
  refine ⟨?_, by simpa [isLetter] using fun _ hdigit => by simpa [hdigit] using h, ?_⟩
  · rcases (Bool.or_eq_true _ _).mp h with h | h
    · simp [isWordChar, Char.isAlphanum, h]
    · rcases (Bool.or_eq_true _ _).mp h with h | h
      · rw [of_decide_eq_true h]
        decide
      · rw [of_decide_eq_true h]
        decide
  · rintro rfl
    revert h
    decide

theorem beginsBadly_pascal {s : String} (h : beginsBadly s.toList = true) :
    beginsBadly (pascal s).toList = true := by
  obtain ⟨c, hc, hbad⟩ := (Option.any_eq_true ..).1 h
  obtain ⟨rest, hchars⟩ := List.head?_eq_some_iff.1 hc
  obtain ⟨hword, hletter, hne⟩ := wordChar_of_bad hbad
  have hfirst := firstWordChar?_other hword hletter rest
  rw [← hchars] at hfirst
  rcases begins_pascal s with ⟨hwell, -⟩ | ⟨-, hnone, -⟩ | ⟨-, hbadly⟩
  · rw [beginsWord, hfirst, hc] at hwell
    simp [hletter, hne] at hwell
  · rw [hfirst] at hnone
    cases hnone
  · exact hbadly

/-! ## Names made of others -/

/-- What is made of a text by taking the words of it and by adding to it. -/
inductive Grown (root : String) : String → Prop
  | root : Grown root root
  | pascal {s : String} : Grown root s → Grown root (pascal s)
  | append {s : String} (t : String) : Grown root s → Grown root (s ++ t)

theorem Grown.beginsWell {root s : String} (h : Grown root s)
    (hroot : beginsWell root.toList = true) : Name.beginsWell s.toList = true := by
  induction h with
  | root => exact hroot
  | pascal _ ih => exact beginsWell_pascal ih
  | append t _ ih =>
    rw [String.toList_append]
    exact beginsWell_append ih _

theorem Grown.beginsBadly {root s : String} (h : Grown root s)
    (hroot : beginsBadly root.toList = true) : Name.beginsBadly s.toList = true := by
  induction h with
  | root => exact hroot
  | pascal _ ih => exact beginsBadly_pascal ih
  | append t _ ih =>
    rw [String.toList_append]
    exact beginsBadly_append ih _

/-! ## Identifiers -/

theorem isPart_of_declarable {c : Char} (h : isDeclarable c = true) (hsign : isSign c = false) :
    isPart c = true := by
  cases hdigit : c.isDigit with
  | true => rw [isPart, hdigit, Bool.or_true, Bool.true_or]
  | false =>
    have hstart : isStart c = true := by
      simp only [isDeclarable, Bool.or_eq_true, decide_eq_true_eq] at h
      rcases h with (h | rfl) | rfl
      · rw [isStart, isLetter_iff.2 ⟨h, hdigit, hsign⟩]
        rfl
      · decide
      · decide
    rw [isPart, hstart]
    rfl

theorem isSign_of_isPart {c : Char} (h : isPart c = true) : isSign c = false := by
  by_contra hsign
  have hcases : c = '×' ∨ c = '÷' := by simpa [isSign, or_iff_not_imp_left] using hsign
  rcases hcases with rfl | rfl
  · revert h
    decide
  · revert h
    decide

/-- The characters of a name that may be an identifier. -/
def isNameChar (c : Char) : Bool := isPart c || isSign c

theorem isNameChar_of_declarable {c : Char} (h : isDeclarable c = true) : isNameChar c = true := by
  cases hsign : isSign c with
  | true => rw [isNameChar, hsign, Bool.or_true]
  | false => rw [isNameChar, isPart_of_declarable h hsign, Bool.true_or]

theorem isStart_of_beginsWell {cs : List Char} (h : beginsWell cs = true) :
    ∃ c rest, cs = c :: rest ∧ isStart c = true := by
  obtain ⟨c, rest, hcs, hletter | rfl | ⟨rfl, -⟩⟩ := beginsWell_cases h
  · exact ⟨c, rest, hcs, by rw [isStart, hletter]; rfl⟩
  · exact ⟨_, rest, hcs, by decide⟩
  · exact ⟨_, rest, hcs, by decide⟩

/-- A name that begins well is an identifier just when it has no sign. -/
theorem isValid_iff {n : String} (hchars : Over (isNameChar · = true) n)
    (hwell : beginsWell n.toList = true) : isValid n = true ↔ NoSign n := by
  obtain ⟨c, rest, hn, hstart⟩ := isStart_of_beginsWell hwell
  have hpart : isPart c = true := by
    rw [isPart, hstart]
    rfl
  rw [isValid, NoSign, Over, hn]
  constructor
  · intro h
    have hrest := List.all_eq_true.1 (Bool.and_eq_true_iff.1 h).2
    exact List.forall_mem_cons.2
      ⟨isSign_of_isPart hpart, fun d hd => isSign_of_isPart (hrest d hd)⟩
  · intro h
    refine Bool.and_eq_true_iff.2 ⟨hstart, List.all_eq_true.2 fun d hd => ?_⟩
    have hmem : d ∈ c :: rest := List.mem_cons_of_mem c hd
    have hchar : (isPart d || isSign d) = true := hchars d (hn ▸ hmem)
    rwa [h d hmem, Bool.or_false] at hchar

/-- A name that is empty or begins badly is no identifier. -/
theorem isValid_eq_false {n : String} (h : n = "" ∨ beginsBadly n.toList = true) :
    isValid n = false := by
  rcases h with rfl | h
  · rfl
  · obtain ⟨c, hc, hbad⟩ := (Option.any_eq_true ..).1 h
    obtain ⟨rest, hn⟩ := List.head?_eq_some_iff.1 hc
    obtain ⟨hword, hletter, hne⟩ := wordChar_of_bad hbad
    have hdollar : c ≠ '$' := by
      rintro rfl
      revert hword
      decide
    have hmark : c ≠ 'ʼ' := by
      rintro rfl
      revert hword
      decide
    rw [isValid, hn]
    simp [isStart, hletter, hne, hdollar, hmark]

/-- What is made of the name of a text and an ending is an identifier, if it has no sign, where the
text begins well, or has no name and the ending begins well; where it does not, it is none. -/
theorem isValid_grown {source ending n : String}
    (hending : ending ≠ "" → beginsWell ending.toList = true)
    (hchars : Over (isNameChar · = true) n) (hgrown : Grown (pascal source ++ ending) n)
    (hempty : pascal source ++ ending = "" → n = "") : isValid n = true ↔
      (beginsWord source = true ∨ (pascal source = "" ∧ ending ≠ "")) ∧ NoSign n := by
  rcases begins_pascal source with ⟨hword, hwell⟩ | ⟨hword, -, hnone⟩ | ⟨hword, hbadly⟩
  · have hroot : beginsWell (pascal source ++ ending).toList = true := by
      rw [String.toList_append]
      exact beginsWell_append hwell _
    rw [isValid_iff hchars (hgrown.beginsWell hroot)]
    exact (and_iff_right (.inl hword)).symm
  · rw [hnone, String.empty_append] at hgrown hempty
    by_cases hend : ending = ""
    · rw [hempty hend, isValid_eq_false (.inl rfl)]
      simp [hword, hend]
    · rw [isValid_iff hchars (hgrown.beginsWell (hending hend))]
      exact (and_iff_right (.inr ⟨hnone, hend⟩)).symm
  · have hroot : beginsBadly (pascal source ++ ending).toList = true := by
      rw [String.toList_append]
      exact beginsBadly_append hbadly _
    have hne : pascal source ≠ "" := by
      intro h
      rw [h] at hbadly
      cases hbadly
    rw [isValid_eq_false (.inr (hgrown.beginsBadly hroot))]
    simp [hword, hne]

/-! ## Names of operations -/

/-- A first character in lower case begins a name as it did. -/
theorem begins_uncapitalize (cs : List Char) :
    (beginsWell cs = true → beginsWell (uncapitalize cs) = true) ∧
      (beginsBadly cs = true → beginsBadly (uncapitalize cs) = true) := by
  have hlower {c : Char} (hne : c ≠ '_') (rest : List Char) :
      uncapitalize (c :: rest) = lower c ++ rest :=
    uncapitalize.eq_3 _ _ (fun _ _ h _ => hne h) (fun h _ => hne h)
  constructor
  · intro h
    obtain ⟨c, rest, rfl, hletter | rfl | ⟨rfl, d, later, rfl, hletter⟩⟩ := beginsWell_cases h
    · have hne : c ≠ '_' := by
        rintro rfl
        revert hletter
        decide
      obtain ⟨d, more, hd, hdletter⟩ := head?_lower hletter
      rw [hlower hne, hd]
      exact beginsWell_letter hdletter _
    · cases rest <;> rfl
    · rw [hlower (by decide)]
      exact h
  · intro h
    obtain ⟨c, hc, hbad⟩ := (Option.any_eq_true ..).1 h
    obtain ⟨rest, rfl⟩ := List.head?_eq_some_iff.1 hc
    obtain ⟨hword, hletter, hne⟩ := wordChar_of_bad hbad
    rw [hlower hne, (caseless hword hletter).1]
    exact h

theorem isNameChar_of_mem_lower {c d : Char} (hc : isDeclarable c = true) (hd : d ∈ lower c) :
    isNameChar d = true := by
  have hword : isWordChar c = true → (lower c).all isNameChar = true :=
    forall_wordChar (p := fun c => (lower c).all isNameChar) (by decide +kernel)
  have hall : (lower c).all isNameChar = true := by
    simp only [isDeclarable, Bool.or_eq_true, decide_eq_true_eq] at hc
    rcases hc with (hc | rfl) | rfl
    · exact hword hc
    · decide
    · decide
  exact List.all_eq_true.1 hall d hd

theorem mem_uncapitalize {cs : List Char} {d : Char} (h : d ∈ uncapitalize cs) :
    d ∈ cs ∨ ∃ c ∈ cs, d ∈ lower c := by
  unfold uncapitalize at h
  split at h
  · rename_i c rest
    rcases List.mem_cons.1 h with rfl | h
    · exact .inl (List.mem_cons_self ..)
    · rcases List.mem_append.1 h with h | h
      · exact .inr ⟨c, by simp, h⟩
      · exact .inl (by simp [h])
  · exact .inl h
  · rename_i c rest _ _
    rcases List.mem_append.1 h with h | h
    · exact .inr ⟨c, List.mem_cons_self .., h⟩
    · exact .inl (List.mem_cons_of_mem c h)
  · cases h

theorem over_camel (s : String) : Over (isNameChar · = true) (camel s) := by
  have hpascal : ∀ c ∈ pascalChars s.toList, isDeclarable c = true := by
    have hover := over_pascal (p := (isDeclarable · = true)) (fun _ h => h) s
    rwa [Over, pascal, String.toList_ofList] at hover
  intro d hd
  rw [camel, String.toList_ofList] at hd
  rcases mem_uncapitalize hd with hd | ⟨c, hc, hd⟩
  · exact isNameChar_of_declarable (hpascal d hd)
  · exact isNameChar_of_mem_lower (hpascal c hc) hd

/-- The name that a text gives an operation, and the type name made of it, are identifiers, if they
have no signs, where the text begins well; else they are none. -/
theorem isValid_camel (s : String) :
    (isValid (camel s) = true ↔ beginsWord s = true ∧ NoSign (camel s)) ∧
      (isValid (pascal (camel s)) = true ↔ beginsWord s = true ∧ NoSign (pascal (camel s))) := by
  have hover : Over (isNameChar · = true) (pascal (camel s)) :=
    over_pascal (fun _ => isNameChar_of_declarable) _
  have hcamel : (camel s).toList = uncapitalize (pascal s).toList := by
    rw [camel, pascal, String.toList_ofList, String.toList_ofList]
  obtain ⟨hwell, hbadly⟩ := begins_uncapitalize (pascal s).toList
  rw [← hcamel] at hwell hbadly
  rcases begins_pascal s with ⟨hword, hbegins⟩ | ⟨hword, -, hnone⟩ | ⟨hword, hbegins⟩
  · rw [isValid_iff (over_camel s) (hwell hbegins),
      isValid_iff hover (beginsWell_pascal (hwell hbegins))]
    exact ⟨(and_iff_right hword).symm, (and_iff_right hword).symm⟩
  · have hempty : camel s = "" := by
      rw [← String.toList_inj, hcamel, hnone]
      rfl
    have hpascal : pascal "" = "" := rfl
    rw [hempty, hpascal, isValid_eq_false (.inl rfl), hword]
    simp
  · rw [isValid_eq_false (.inr (hbadly hbegins)),
      isValid_eq_false (.inr (beginsBadly_pascal (hbadly hbegins))), hword]
    simp

end ApiTypes.Name

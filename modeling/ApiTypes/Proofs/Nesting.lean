import ApiTypes.Proofs.NullText
import ApiTypes.Proofs.QuotedTexts
import Mathlib.Data.List.Chain

/-!
# Quotes, comments and brackets

* `Text.Nested` : texts in which every quoted literal, comment and bracket that is begun is ended;
* `Text.nested_of_append` : what stands before plain characters in such a text is one too;
* `Name.Plain` : names without the characters that mean something in a type;
* `Binary64.over_text` : the characters of numbers;
* `Comment.nested_render` : comments end themselves, whatever they say.
-/

namespace ApiTypes

namespace Text

/-! ## Nested texts -/

inductive Bracket where
  | brace | square | round
  deriving DecidableEq, Repr

def Bracket.opening : Bracket → Char
  | brace => '{'
  | square => '['
  | round => '('

def Bracket.closing : Bracket → Char
  | brace => '}'
  | square => ']'
  | round => ')'

def opens (c : Char) : Bool := c = '{' || c = '[' || c = '('

def closes (c : Char) : Bool := c = '}' || c = ']' || c = ')'

/-- What begins or ends nothing: no quote, no bracket, and no slash, which begins a comment. -/
def isBare (c : Char) : Bool := !(c = '\'' || c = '/' || opens c || closes c)

/-- A text in which no comment ends. -/
def NoEnd (s : List Char) : Prop := s.IsChain fun c d => ¬ (c = '*' ∧ d = '/')

instance (s : List Char) : Decidable (NoEnd s) :=
  inferInstanceAs (Decidable (s.IsChain fun c d => ¬ (c = '*' ∧ d = '/')))

/-- Texts in which every quoted literal, comment and bracket that is begun is ended. -/
inductive Nested : List Char → Prop
  | nil : Nested []
  | bare {c : Char} {rest : List Char} (hc : isBare c = true) : Nested rest → Nested (c :: rest)
  | quoted (s : List Char) {rest : List Char} :
      Nested rest → Nested ('\'' :: (escape s ++ '\'' :: rest))
  | comment {s rest : List Char} (hs : NoEnd s) :
      Nested rest → Nested ('/' :: '*' :: (s ++ '*' :: '/' :: rest))
  | group (b : Bracket) {inner rest : List Char} :
      Nested inner → Nested rest → Nested (b.opening :: (inner ++ b.closing :: rest))

theorem Nested.append {a b : List Char} (ha : Nested a) (hb : Nested b) : Nested (a ++ b) := by
  induction ha with
  | nil => exact hb
  | bare hc _ ih => exact .bare hc ih
  | quoted s _ ih => simpa using Nested.quoted s ih
  | comment hs _ ih => simpa using Nested.comment hs ih
  | group bracket hinner _ _ ih => simpa using Nested.group bracket hinner ih

theorem nested_of_bare {s : List Char} (h : s.all isBare = true) : Nested s := by
  induction s with
  | nil => exact .nil
  | cons c rest ih =>
    rw [List.all_cons, Bool.and_eq_true] at h
    exact .bare h.1 (ih h.2)

/-- What ends without a character that the first part ends with, ends in the second part. -/
theorem exists_of_append_eq {a b before word : List Char} {c : Char}
    (h : a ++ c :: b = before ++ word) (hc : c ∉ word) :
    ∃ later, before = a ++ c :: later ∧ b = later ++ word := by
  rcases List.append_eq_append_iff.1 h with ⟨later, rfl, hlater⟩ | ⟨earlier, -, rfl⟩
  · cases later with
    | nil =>
      obtain rfl : c :: b = word := hlater
      exact absurd (List.mem_cons_self ..) hc
    | cons d later =>
      obtain ⟨rfl, rfl⟩ := List.cons.inj hlater
      exact ⟨later, rfl, rfl⟩
  · exact absurd (List.mem_append_right _ (List.mem_cons_self ..)) hc

/-- What stands before bare characters in a nested text is nested. -/
theorem nested_of_append {before word : List Char} (h : Nested (before ++ word))
    (hword : word.all isBare = true) : Nested before := by
  have hnot : ∀ c, isBare c = false → c ∉ word := by
    intro c hc hmem
    rw [List.all_eq_true.1 hword c hmem] at hc
    cases hc
  generalize htext : before ++ word = text at h
  induction h generalizing before with
  | nil =>
    obtain ⟨rfl, -⟩ := List.append_eq_nil_iff.1 htext
    exact .nil
  | bare hc _ ih =>
    rcases List.append_eq_cons_iff.1 htext with ⟨rfl, -⟩ | ⟨later, rfl, hlater⟩
    · exact .nil
    · exact .bare hc (ih hlater.symm)
  | quoted s _ ih =>
    obtain ⟨later, rfl, hlater⟩ := exists_of_append_eq (a := '\'' :: escape s)
      (by simpa using htext.symm) (hnot '\'' (by decide))
    simpa using Nested.quoted s (ih hlater.symm)
  | @comment s rest hs _ ih =>
    obtain ⟨later, rfl, hlater⟩ := exists_of_append_eq (a := '/' :: '*' :: (s ++ ['*']))
      (by simpa using htext.symm) (hnot '/' (by decide))
    simpa using Nested.comment hs (ih hlater.symm)
  | @group bracket inner rest hinner _ _ ih =>
    obtain ⟨later, rfl, hlater⟩ := exists_of_append_eq (a := bracket.opening :: inner)
      (by simpa using htext.symm) (hnot bracket.closing (by cases bracket <;> decide))
    simpa using Nested.group bracket hinner (ih hlater.symm)

theorem nested_join {sep : String} (hsep : Nested sep.toList) {parts : List String}
    (h : ∀ p ∈ parts, Nested p.toList) : Nested (join sep parts).toList := by
  induction parts with
  | nil => exact .nil
  | cons p rest ih =>
    obtain ⟨hp, hrest⟩ := List.forall_mem_cons.1 h
    cases rest with
    | nil =>
      rw [join_singleton]
      exact hp
    | cons q rest =>
      rw [join_cons_cons, String.toList_append, String.toList_append]
      exact hp.append (hsep.append (ih hrest))

theorem nested_quoted (s : String) : Nested (quoted s).toList := by
  rw [quoted, String.toList_ofList]
  exact .quoted s.toList .nil

end Text

/-! ## Names -/

namespace Name
open Text

/-- A name without quotes, slashes, brackets and operators. Letters, digits, `_` and `$` are none of
these. -/
def Plain (n : String) : Prop := Over (fun c => isBare c = true ∧ c ≠ '|' ∧ c ≠ '&') n

instance (n : String) : Decidable (Plain n) :=
  List.decidableBAll (fun c => isBare c = true ∧ c ≠ '|' ∧ c ≠ '&') n.toList

theorem Plain.nested {n : String} (h : Plain n) : Nested n.toList :=
  nested_of_bare (List.all_eq_true.2 fun c hc => (h c hc).1)

/-- A test that the characters with a meaning fail. -/
theorem isBare_of {p : Char → Bool} (h : ['\'', '/', '{', '[', '(', '}', ']', ')'].any p = false)
    {c : Char} (hc : p c = true) : isBare c = true := by
  by_contra hbare
  have hmem : c ∈ ['\'', '/', '{', '[', '(', '}', ']', ')'] := by
    simp only [isBare, opens, closes, Bool.not_eq_true, Bool.not_eq_false', Bool.or_eq_true,
      decide_eq_true_eq] at hbare
    simp only [List.mem_cons, List.not_mem_nil, or_false]
    tauto
  exact List.any_eq_false.1 h c hmem hc

theorem plain_laws : Laws Plain := by
  refine .ofOver fun c hc => ⟨isBare_of (p := isDeclarable) (by decide) hc, ?_, ?_⟩
  · rintro rfl
    revert hc
    decide
  · rintro rfl
    revert hc
    decide

theorem isIdentifierChar_of_mem {cs : List Char} (h : isIdentifier cs = true) :
    ∀ c ∈ cs, isIdentifierChar c = true := by
  cases cs with
  | nil => simp
  | cons c rest =>
    rw [isIdentifier, Bool.and_eq_true] at h
    refine List.forall_mem_cons.2 ⟨?_, List.all_eq_true.1 h.2⟩
    have hstart := h.1
    simp only [isIdentifierStart, isIdentifierChar, Char.isAlphanum, Bool.or_eq_true] at *
    tauto

/-- A member name is an identifier, with a line feed at most, or quoted. -/
theorem member_chars (key : String) : member key = quoted key ∨
    member key ≠ "" ∧ Over (fun c => c = '\n' ∨ isIdentifierChar c = true) (member key) := by
  rcases member_cases key with ⟨hidentifier, hbare⟩ | ⟨-, hquoted⟩
  · refine .inr ⟨?_, fun c hc => ?_⟩ <;> rw [hbare] at *
    · rintro rfl
      revert hidentifier
      decide
    · have hcases : c = '\n' ∨ c ∈ dropFinalBreak key.toList := by
        unfold dropFinalBreak
        split
        · rename_i hlast
          rw [← List.dropLast_append_getLast? _ hlast] at hc
          exact (List.mem_append.1 hc).symm.imp_left List.mem_singleton.1
        · exact .inr hc
      exact hcases.imp_right (isIdentifierChar_of_mem hidentifier c)
  · exact .inl hquoted

end Name

/-! ## Numbers -/

namespace Binary64

/-- The characters of numbers: digits, the point, the mark of an exponent, signs, and the letters of
the words for what is no finite number. -/
def isTextChar (c : Char) : Bool :=
  c.isDigit || ['.', 'e', '-', '+', 'n', 'a', 'i', 'f'].contains c

theorem isTextChar_of_digit {c : Char} (hc : c.isDigit = true) : isTextChar c = true := by
  rw [isTextChar, hc, Bool.true_or]

/-- The digits of a number are digits. -/
theorem isDigit_of_mem_shortest {m : Nat} {e : Int} :
    ∀ c ∈ (shortest m e).1, c.isDigit = true := by
  intro c hc
  have hmem := List.mem_reverse.1 ((List.dropWhile_sublist _).mem (List.mem_reverse.1 hc))
  exact Nat.isDigit_of_mem_toDigits (b := 10) (by decide) (by decide) hmem

theorem isTextChar_of_mem_exponentText (e : Int) :
    ∀ c ∈ exponentText e, isTextChar c = true := by
  have hdigits : ∀ c ∈ Nat.toDigits 10 e.natAbs, isTextChar c = true := fun c hc =>
    isTextChar_of_digit (Nat.isDigit_of_mem_toDigits (by decide) (by decide) hc)
  unfold exponentText
  refine List.forall_mem_cons.2 ⟨?_, ?_⟩
  · split <;> decide
  · split
    · exact List.forall_mem_cons.2 ⟨by decide, hdigits⟩
    · exact hdigits

theorem isTextChar_of_mem_layout {digits : List Char} (hdigits : ∀ c ∈ digits, c.isDigit = true)
    (e : Int) : ∀ c ∈ layout digits e, isTextChar c = true := by
  have hall : ∀ c ∈ digits, isTextChar c = true := fun c hc => isTextChar_of_digit (hdigits c hc)
  have hzeros : ∀ n, ∀ c ∈ List.replicate n '0', isTextChar c = true := fun n c hc =>
    List.eq_of_mem_replicate hc ▸ by decide
  have htake : ∀ n, ∀ c ∈ digits.take n, isTextChar c = true := fun n c hc =>
    hall c (List.mem_of_mem_take hc)
  have hdrop : ∀ n, ∀ c ∈ digits.drop n, isTextChar c = true := fun n c hc =>
    hall c (List.mem_of_mem_drop hc)
  unfold layout
  dsimp only
  split
  · split
    · exact List.forall_mem_cons.2 ⟨by decide, List.forall_mem_cons.2
        ⟨by decide, List.forall_mem_append.2 ⟨hzeros _, hall⟩⟩⟩
    · refine List.forall_mem_append.2 ⟨List.forall_mem_append.2 ⟨htake _, hzeros _⟩, ?_⟩
      refine List.forall_mem_cons.2 ⟨by decide, ?_⟩
      split
      · exact List.forall_mem_singleton.2 (by decide)
      · exact hdrop _
  · refine List.forall_mem_append.2 ⟨List.forall_mem_append.2 ⟨htake _, ?_⟩, ?_⟩
    · split
      · simp
      · exact List.forall_mem_cons.2 ⟨by decide, hdrop _⟩
    · exact List.forall_mem_cons.2 ⟨by decide, isTextChar_of_mem_exponentText _⟩

theorem over_text (x : Binary64) : Text.Over (isTextChar · = true) x.text := by
  have hinf : ∀ c ∈ ['i', 'n', 'f'], isTextChar c = true := List.all_eq_true.1 (by decide)
  cases x with
  | nan => exact List.all_eq_true.1 (by decide : ['n', 'a', 'n'].all isTextChar = true)
  | infinite negative =>
    cases negative with
    | false => exact hinf
    | true => exact List.forall_mem_cons.2 ⟨by decide, hinf⟩
  | finite negative m e =>
    have hbody : ∀ c ∈ (if m = 0 then ['0', '.', '0'] else
        layout (shortest m e).1 (shortest m e).2), isTextChar c = true := by
      split
      · exact List.all_eq_true.1 (by decide)
      · exact isTextChar_of_mem_layout isDigit_of_mem_shortest _
    rw [Text.Over, text, String.toList_ofList]
    split
    · exact List.forall_mem_cons.2 ⟨by decide, hbody⟩
    · exact hbody

end Binary64

/-! ## Comments -/

namespace Text

/-- A text that can stand in a comment after any other one: no comment ends in it, and it does not
begin with the slash that would end one. -/
def Inert (s : List Char) : Prop := NoEnd s ∧ s.head? ≠ some '/'

instance (s : List Char) : Decidable (Inert s) :=
  inferInstanceAs (Decidable (NoEnd s ∧ s.head? ≠ some '/'))

theorem Inert.append {a b : List Char} (ha : Inert a) (hb : Inert b) : Inert (a ++ b) := by
  constructor
  · refine List.isChain_append.2 ⟨ha.1, hb.1, ?_⟩
    rintro c - d hd ⟨-, rfl⟩
    exact hb.2 hd
  · cases a with
    | nil => exact hb.2
    | cons c rest => exact ha.2

theorem inert_flatMap {α : Type} {f : α → List Char} {as : List α} (h : ∀ a ∈ as, Inert (f a)) :
    Inert (as.flatMap f) := by
  induction as with
  | nil => exact ⟨.nil, by simp⟩
  | cons a rest ih =>
    obtain ⟨ha, hrest⟩ := List.forall_mem_cons.1 h
    exact ha.append (ih hrest)

/-- After a blank anything can stand in which no comment ends. -/
theorem inert_blank {s : List Char} (h : NoEnd s) : Inert (' ' :: s) :=
  ⟨List.isChain_cons.2 ⟨by simp, h⟩, by simp⟩

theorem inert_join {sep : String} (hsep : Inert sep.toList) {parts : List String}
    (h : ∀ p ∈ parts, NoEnd p.toList) : Inert (' ' :: (join (sep ++ " ") parts).toList) := by
  induction parts with
  | nil => exact inert_blank .nil
  | cons p rest ih =>
    obtain ⟨hp, hrest⟩ := List.forall_mem_cons.1 h
    cases rest with
    | nil =>
      rw [join_singleton]
      exact inert_blank hp
    | cons q rest =>
      rw [join_cons_cons]
      simpa using (inert_blank hp).append (hsep.append (ih hrest))

/-- A comment is nested. -/
theorem nested_comment {s : List Char} (h : Inert s) :
    Nested ('/' :: '*' :: (s ++ ['*', '/', '\n'])) :=
  .comment h.1 (.bare (by decide) .nil)

end Text

namespace Comment
open Text

theorem head?_guardedChars (s : List Char) : (guardedChars s).head? = s.head? := by
  unfold guardedChars
  split <;> rfl

theorem noEnd_guardedChars (s : List Char) : NoEnd (guardedChars s) := by
  fun_induction guardedChars s with
  | case1 rest ih =>
    refine List.isChain_cons_cons.2 ⟨by simp, List.isChain_cons_cons.2 ⟨by simp, ?_⟩⟩
    exact List.isChain_cons.2 ⟨by simp, ih⟩
  | case2 c rest hnot ih =>
    refine List.isChain_cons.2 ⟨?_, ih⟩
    rintro d hd ⟨rfl, rfl⟩
    rw [head?_guardedChars] at hd
    obtain ⟨later, rfl⟩ := List.head?_eq_some_iff.1 hd
    exact hnot later rfl rfl
  | case3 => exact .nil

theorem noEnd_guarded (s : String) : NoEnd (guarded s).toList := by
  rw [guarded, String.toList_ofList]
  exact noEnd_guardedChars _

/-- A comment in which no text ends it. -/
structure Guarded (c : Comment) : Prop where
  description : ∀ lines ∈ c.description, ∀ l ∈ lines, NoEnd l.toList
  summary : ∀ s ∈ c.summary, NoEnd s.toList

/-- What values say of themselves ends no comment. -/
theorem guarded_make? {description deprecated summary : Option Value} {c : Comment}
    (h : make? description deprecated summary = some c) : c.Guarded := by
  unfold make? at h
  dsimp only at h
  split at h
  · cases h
  · obtain rfl := Option.some.inj h
    constructor
    · intro lines hlines l hl
      obtain ⟨v, -, rfl⟩ := Option.map_eq_some_iff.1 hlines
      unfold descriptionLines at hl
      split at hl
      · obtain ⟨w, -, rfl⟩ := List.mem_map.1 hl
        exact noEnd_guarded _
      · dsimp only at hl
        split at hl
        · obtain rfl := List.mem_singleton.1 hl
          exact .nil
        · obtain ⟨w, -, rfl⟩ := List.mem_map.1 hl
          exact noEnd_guarded _
    · intro s hs
      obtain ⟨v, -, rfl⟩ := Option.map_eq_some_iff.1 hs
      exact noEnd_guarded _

theorem Guarded.entries {c : Comment} (h : c.Guarded) :
    ∀ lines ∈ c.entries, ∀ l ∈ lines, NoEnd l.toList := by
  intro lines hlines
  rcases List.mem_append.1 hlines with hlines | hlines
  · rcases List.mem_append.1 hlines with hlines | hlines
    · exact h.description lines (Option.mem_toList.1 hlines)
    · split at hlines
      · obtain rfl := List.mem_singleton.1 hlines
        exact List.forall_mem_singleton.2 (by decide)
      · cases hlines
  · obtain ⟨s, hs, rfl⟩ := Option.map_eq_some_iff.1 (Option.mem_toList.1 hlines)
    have hinert : Inert ("@summary".toList ++ ' ' :: s.toList) :=
      Inert.append (by decide) (inert_blank (h.summary s hs))
    exact List.forall_mem_singleton.2 (by simpa using hinert.1)

/-- The comment as one text between the marks that begin and end it. -/
theorem exists_render {c : Comment} (h : c.Guarded) (inline : Bool) :
    ∃ s, Inert s ∧ (c.render inline).toList = '/' :: '*' :: '*' :: (s ++ ['*', '/', '\n']) := by
  unfold render
  dsimp only
  generalize (inline && decide (c.entries.length = 1)) = oneLine
  generalize hstart : "\n" ++ (if inline then "  " else "") ++ " *" = lineStart
  have hline : Inert lineStart.toList := by
    rw [← hstart]
    cases inline <;> decide
  have hend : Inert (if oneLine then " " else "\n " ++ if inline then "  " else "").toList := by
    cases oneLine <;> cases inline <;> decide
  have hitems : ∀ lines ∈ c.entries, Inert ((if oneLine then "" else lineStart) ++ " " ++
      join (lineStart ++ " ") lines).toList := by
    intro lines hlines
    have hjoin := inert_join hline (h.entries lines hlines)
    split
    · simpa using hjoin
    · simpa using hline.append hjoin
  exact ⟨_, (inert_flatMap hitems).append hend, by simp [String.toList_join, List.flatMap_map]⟩

theorem nested_render {c : Comment} (h : c.Guarded) (inline : Bool) :
    Nested (c.render inline).toList := by
  obtain ⟨s, hs, htext⟩ := exists_render h inline
  have hstar : Inert ['*'] := by decide
  rw [htext]
  exact nested_comment (hstar.append hs)

end Comment

end ApiTypes

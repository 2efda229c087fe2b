import ApiTypes.Proofs.Names
import ApiTypes.Proofs.Shape

/-!
# The characters of names

* `Text.Over p s` : every character of `s` satisfies `p`;
* `Name.isDeclarable` : the characters that names are made of;
* `Name.over_pascal` : a name made of any text is over these;
* `Name.Laws P` : what names of words and numbers have, and what is put together of them;
* `Resolve.made_childNames`, `Resolve.made_numbered`, `Resolve.made_itemName` : so have the names of
  members, parts and items, where those they are made from have it;
* `Resolve.made_info` : so has the name that a reference stands for, where the suffixes in force do.
-/

namespace ApiTypes

namespace Text

/-- Every character of a text satisfies `p`. -/
def Over (p : Char → Prop) (s : String) : Prop := ∀ c ∈ s.toList, p c

theorem over_append {p : Char → Prop} {s t : String} :
    Over p (s ++ t) ↔ Over p s ∧ Over p t := by
  unfold Over
  rw [String.toList_append]
  exact List.forall_mem_append

/-- A number is over the digits. -/
theorem over_number {p : Char → Prop} (hp : ∀ c : Char, c.isDigit = true → p c) (n : Nat) :
    Over p (toString n) := by
  intro c hc
  refine hp c (Nat.isDigit_of_mem_toDigits (b := 10) (by decide) (by decide) (n := n) ?_)
  simpa [toString, Nat.repr] using hc

end Text

namespace Name
open Text

/-- The characters that names are made of: those of words, the underscore that may stand first, and
the mark that comes of one letter without a capital of its own. -/
def isDeclarable (c : Char) : Bool := isWordChar c || c = '_' || c = 'ʼ'

theorem toNat_lt_of_wordChar {c : Char} (h : isWordChar c = true) : c.toNat < 0x180 := by
  unfold isWordChar at h
  rcases (Bool.or_eq_true _ _).mp h with h | h
  · have h127 : c.val ≤ 0x7a := by
      rcases (Bool.or_eq_true c.isAlpha c.isDigit).mp h with h | h
      · rcases (Bool.or_eq_true c.isUpper c.isLower).mp h with h | h
        · exact UInt32.le_trans (of_decide_eq_true h).2 (by decide)
        · exact of_decide_eq_true ((Bool.and_eq_true _ _).mp h).2
      · exact UInt32.le_trans (of_decide_eq_true ((Bool.and_eq_true _ _).mp h).2) (by decide)
    have : c.toNat ≤ 0x7a := UInt32.le_iff_toNat_le.1 h127
    omega
  · have hle : c ≤ 'ſ' := (of_decide_eq_true ((Bool.and_eq_true _ _).mp h).2)
    have : c.toNat ≤ ('ſ').toNat := hle
    have hval : ('ſ').toNat = 0x17f := by decide
    omega

/-- The capital of a character of words is made of characters of names. -/
theorem isDeclarable_of_mem_upper {c d : Char} (hc : isWordChar c = true) (hd : d ∈ upper c) :
    isDeclarable d = true := by
  have hall : ∀ n < 0x180, isWordChar (Char.ofNat n) = true →
      (upper (Char.ofNat n)).all isDeclarable = true := by decide +kernel
  have h := hall c.toNat (toNat_lt_of_wordChar hc)
  rw [Char.ofNat_toNat] at h
  exact List.all_eq_true.1 (h hc) d hd

theorem isDeclarable_of_wordChar {c : Char} (h : isWordChar c = true) : isDeclarable c = true := by
  simp [isDeclarable, h]

theorem isDeclarable_of_isDigit {c : Char} (h : c.isDigit = true) : isDeclarable c = true :=
  isDeclarable_of_wordChar (by simp [isWordChar, Char.isAlphanum, h])

theorem wordsFrom_chars {word cs : List Char} (hword : ∀ c ∈ word, isWordChar c = true) :
    ∀ w ∈ wordsFrom word cs, ∀ c ∈ w, isWordChar c = true := by
  induction cs generalizing word with
  | nil =>
    rw [wordsFrom]
    split
    · simp
    · simpa using hword
  | cons c rest ih =>
    rw [wordsFrom]
    split
    · rename_i hc
      exact ih (List.forall_mem_cons.2 ⟨hc, hword⟩)
    · split
      · exact ih (by simp)
      · refine List.forall_mem_cons.2 ⟨by simpa using hword, ih (by simp)⟩

/-- A name is made of the characters of names, whatever text it comes from. -/
theorem over_pascal {p : Char → Prop} (hp : ∀ c, isDeclarable c = true → p c) (s : String) :
    Over p (pascal s) := by
  have hcapital : ∀ w ∈ words s.toList, ∀ c ∈ capitalize w, p c := by
    intro w hw c hc
    have hchars : ∀ c ∈ w, isWordChar c = true := wordsFrom_chars (by simp) w hw
    cases w with
    | nil => cases hc
    | cons first rest =>
      rw [capitalize] at hc
      rcases List.mem_append.1 hc with hc | hc
      · exact hp c (isDeclarable_of_mem_upper (hchars first (List.mem_cons_self ..)) hc)
      · exact hp c (isDeclarable_of_wordChar (hchars c (List.mem_cons_of_mem _ hc)))
  have hbody : ∀ c ∈ (words s.toList).flatMap capitalize, p c := by
    intro c hc
    obtain ⟨w, hw, hc⟩ := List.mem_flatMap.1 hc
    exact hcapital w hw c hc
  intro c hc
  rw [pascal, String.toList_ofList, pascalChars] at hc
  split at hc
  · rcases List.mem_cons.1 hc with rfl | hc
    · exact hp _ (by decide)
    · exact hbody c hc
  · exact hbody c hc

/-! ## What names are made of -/

/-- What the names of words and the numbers have, and two texts put together if each has it. So any
name has it that is made of words and numbers. -/
structure Laws (P : String → Prop) : Prop where
  pascal : ∀ s, P (pascal s)
  number : ∀ n : Nat, P (toString n)
  append : ∀ {s t}, P s → P t → P (s ++ t)

namespace Laws

variable {P : String → Prop}

theorem empty (laws : Laws P) : P "" := laws.pascal ""

/-- A text that is a name of words. -/
theorem word (laws : Laws P) {s : String} (h : Name.pascal s = s) : P s := h ▸ laws.pascal s

/-- The characters of names are such. -/
theorem ofOver {p : Char → Prop} (hp : ∀ c, isDeclarable c = true → p c) : Laws (Over p) where
  pascal := over_pascal hp
  number := over_number fun c hc => hp c (isDeclarable_of_isDigit hc)
  append hs ht := over_append.2 ⟨hs, ht⟩

end Laws
end Name

/-- The suffixes in force have a property. -/
def Context.SuffixesHave (P : String → Prop) (ctx : Context) : Prop :=
  ∀ componentType suffix, ctx.suffixFor componentType = .ok (.text suffix) → P suffix

theorem Context.SuffixesHave.mono {P Q : String → Prop} {ctx : Context} (h : ctx.SuffixesHave P)
    (hPQ : ∀ n, P n → Q n) : ctx.SuffixesHave Q :=
  fun componentType suffix hsuffix => hPQ _ (h componentType suffix hsuffix)

namespace Resolve

section
variable {P : String → Prop} (laws : Name.Laws P)
include laws

theorem made_freeName (used : List String) {name : String} (h : P name) :
    P (freeName used name) := by
  unfold freeName
  split
  · exact laws.append h (laws.number _)
  · exact h

theorem made_pascal {v : Value} {name : String} (h : Form.pascal v = .ok name) : P name := by
  unfold Form.pascal at h
  split at h
  · exact Except.ok.inj h ▸ laws.pascal _
  · split at h
    · simp [Form.fail] at h
    · exact Except.ok.inj h ▸ laws.empty

theorem made_childName {ctx : Context} {parent : String} {key : Value} {name : String}
    (h : childName ctx parent key = .ok name) : P name := by
  obtain ⟨child, hchild, hcases⟩ := childName_ok h
  have hname : P (Name.pascal parent ++ child) :=
    laws.append (laws.pascal _) (made_pascal laws hchild)
  have hproperty : P "Property" := laws.word (by decide)
  rcases hcases with rfl | rfl
  · exact hname
  · exact laws.append hname hproperty

theorem made_childNamesFrom {ctx : Context} {parent : String} {used : List String}
    {keys : List Value} {names : List String}
    (h : childNamesFrom ctx parent used keys = .ok names) : ∀ n ∈ names, P n := by
  induction keys generalizing used names with
  | nil =>
    obtain rfl : [] = names := by simpa [childNamesFrom] using h
    simp
  | cons key rest ih =>
    rw [childNamesFrom] at h
    obtain ⟨child, hchild, h⟩ := Except.bind_eq_ok.1 h
    obtain ⟨later, hlater, h⟩ := Except.bind_eq_ok.1 h
    obtain rfl : freeName used child :: later = names := by simpa [pure, Except.pure] using h
    exact List.forall_mem_cons.2 ⟨made_freeName laws used (made_childName laws hchild), ih hlater⟩

theorem made_childNames {ctx : Context} {parent : Option String} {keys : List Value}
    {names : List (Option String)} (h : childNames ctx parent keys = .ok names) :
    ∀ name ∈ names, ∀ n ∈ name, P n := by
  unfold childNames at h
  split at h
  · obtain rfl : (keys.map fun _ => none) = names := by simpa using h
    simp
  · obtain ⟨texts, htexts, h⟩ := Except.bind_eq_ok.1 h
    obtain rfl : texts.map some = names := by simpa [pure, Except.pure] using h
    simpa using made_childNamesFrom laws htexts

theorem made_itemName {name : Option String} (h : ∀ n ∈ name, P n) : ∀ n ∈ itemName name, P n := by
  intro n hn
  obtain ⟨m, hm, rfl⟩ := Option.map_eq_some_iff.1 hn
  exact laws.append (h m hm) (laws.word (by decide))

theorem made_partName (name : Option String) (keyword : Keyword) :
    ∀ n ∈ partName name keyword, P n := by
  intro n hn
  obtain ⟨m, -, rfl⟩ := Option.map_eq_some_iff.1 hn
  exact laws.append (laws.pascal _) (laws.pascal _)

theorem made_numbered {name : Option String} (h : ∀ n ∈ name, P n) (count : Nat) :
    ∀ n ∈ numbered name count, P n := by
  intro n hn
  obtain ⟨m, hm, rfl⟩ := Option.map_eq_some_iff.1 hn
  split
  · exact h m hm
  · exact laws.append (h m hm) (laws.number _)

theorem made_info {ctx : Context} (hctx : ctx.SuffixesHave P) {ref : String}
    {info : Reference.Info} (h : Reference.info ctx ref = .ok info) : P info.name := by
  obtain ⟨located, original, suffix, -, -, hsuffix, rfl⟩ := info_ok h
  refine laws.append (laws.pascal _) ?_
  unfold Reference.suffixOf at hsuffix
  split at hsuffix
  · exact hctx _ _ hsuffix
  · obtain rfl : "" = suffix := by simpa [Value.text] using hsuffix
    exact laws.empty

end

theorem made_givenName {P : String → Prop} {name : Option String} (h : ∀ n ∈ name, P n) :
    ∀ n ∈ givenName name, P n := by
  intro n hn
  exact h n (Option.filter_eq_some_iff.1 hn).1

end Resolve
end ApiTypes

import ApiTypes.Proofs.Identifiers
import ApiTypes.Proofs.Naming
import ApiTypes.Proofs.OperationNames

/-!
# Names that are taken as texts again

* `Text.Diverge`, `Text.SameIf` : two texts with different characters after a common start, unless
  they are the same;
* `Name.Cased` : a capital and further characters of words, after an underscore or not. Names are
  cased (`Name.cased_pascal`), and so are the names of members (`Resolve.MemberName.cased`);
* `Name.Settled` : whether a cased name is its own name;
* `recased_names` : the name of a name is the same, and the names of its members and parts begin
  with it, just where it is settled;
* `recased_names_capitals` : a name of capitals alone.
-/

namespace ApiTypes

namespace Text

/-- Two texts have different characters after a common start. -/
def Diverge (p q : List Char) : Prop :=
  ∃ start c d more rest, p = start ++ c :: more ∧ q = start ++ d :: rest ∧ c ≠ d

section
variable {p q : List Char}

theorem Diverge.append_left (h : Diverge p q) (start : List Char) :
    Diverge (start ++ p) (start ++ q) := by
  obtain ⟨mid, c, d, more, rest, rfl, rfl, hne⟩ := h
  exact ⟨start ++ mid, c, d, more, rest, by simp, by simp, hne⟩

theorem Diverge.not_prefix (h : Diverge p q) (more : List Char) : ¬ p <+: q ++ more := by
  obtain ⟨start, c, d, pmore, qmore, rfl, rfl, hne⟩ := h
  rw [List.append_assoc, List.prefix_append_right_inj, List.cons_append, List.cons_prefix_cons]
  exact fun heq => hne heq.1

theorem Diverge.ne (h : Diverge p q) : q ≠ p := by
  rintro rfl
  exact h.not_prefix [] (by simp)

end

/-- Two texts are the same if a condition holds, and diverge if it does not. -/
def SameIf (h : Prop) (p q : List Char) : Prop := (h ∧ q = p) ∨ (¬ h ∧ Diverge p q)

section
variable {h : Prop} {p q : List Char}

theorem SameIf.eq_iff (hsame : SameIf h p q) : q = p ↔ h := by
  rcases hsame with ⟨hholds, heq⟩ | ⟨hfails, hdiverge⟩
  · exact iff_of_true heq hholds
  · exact iff_of_false hdiverge.ne hfails

theorem SameIf.prefix_iff (hsame : SameIf h p q) (more : List Char) : p <+: q ++ more ↔ h := by
  rcases hsame with ⟨hholds, heq⟩ | ⟨hfails, hdiverge⟩
  · rw [heq]
    exact iff_of_true (List.prefix_append ..) hholds
  · exact iff_of_false (hdiverge.not_prefix more) hfails

theorem SameIf.append_left (hsame : SameIf h p q) (start : List Char) :
    SameIf h (start ++ p) (start ++ q) :=
  hsame.imp (fun hkept => ⟨hkept.1, congrArg (start ++ ·) hkept.2⟩)
    fun hlost => ⟨hlost.1, hlost.2.append_left start⟩

end

end Text

namespace Name
open Text

/-! ## Cased names -/

/-- Characters of words, among them marks of `ŉ`, each before its letter. -/
inductive Row : List Char → Prop
  | nil : Row []
  | char {c : Char} {cs : List Char} (hc : isWordChar c = true) (h : Row cs) : Row (c :: cs)
  | mark {cs : List Char} (h : Row cs) : Row ('ʼ' :: 'N' :: cs)

/-- A name without the underscore that it may start with. -/
def letters (n : List Char) : List Char := n.dropWhile (· = '_')

/-- A row of characters of words that starts with a capital, or with what has none. -/
structure Capitalized (cs : List Char) : Prop where
  row : Row cs
  capital : ∀ c ∈ cs.head?, upper c = [c]

/-- Such a row, after an underscore or not. -/
structure Cased (n : List Char) : Prop where
  start : n = letters n ∨ n = '_' :: letters n
  capitalized : Capitalized (letters n)

namespace Row

variable {cs ds : List Char}

theorem append (hcs : Row cs) (hds : Row ds) : Row (cs ++ ds) := by
  induction hcs with
  | nil => exact hds
  | char hc _ ih => exact .char hc ih
  | mark _ ih => exact .mark ih

theorem of_words (h : ∀ c ∈ cs, isWordChar c = true) : Row cs := by
  induction cs with
  | nil => exact .nil
  | cons c rest ih =>
    obtain ⟨hc, hrest⟩ := List.forall_mem_cons.1 h
    exact .char hc (ih hrest)

theorem head?_ne (h : Row cs) : cs.head? ≠ some '_' := by
  cases h with
  | nil => simp
  | char hc _ =>
    intro heq
    obtain rfl := Option.some.inj heq
    exact absurd hc (by decide)
  | mark _ => simp

theorem letters_eq (h : Row cs) : letters cs = cs := by
  cases cs with
  | nil => rfl
  | cons c rest => exact List.dropWhile_cons_of_neg (by simpa using h.head?_ne)

end Row

namespace Capitalized

variable {cs ds : List Char}

theorem append (hcs : Capitalized cs) (hds : Capitalized ds) : Capitalized (cs ++ ds) := by
  refine ⟨hcs.row.append hds.row, ?_⟩
  cases cs with
  | nil => exact hds.capital
  | cons c rest => exact hcs.capital

theorem cased (h : Capitalized cs) : Cased cs := by
  have heq := h.row.letters_eq
  exact ⟨.inl heq.symm, heq.symm ▸ h⟩

theorem cased_underscore (h : Capitalized cs) : Cased ('_' :: cs) := by
  have heq : letters ('_' :: cs) = cs := h.row.letters_eq
  exact ⟨.inr (by rw [heq]), heq.symm ▸ h⟩

end Capitalized

/-- The capital of a character of words is one. -/
theorem upper_head {c : Char} (hc : isWordChar c = true) :
    ∃ d more, upper c = d :: more ∧ upper d = [d] := by
  have hall := forall_wordChar
    (p := fun c => (upper c).head?.any fun d => decide (upper d = [d])) (by decide +kernel) hc
  obtain ⟨d, hd, hcapital⟩ := (Option.any_eq_true ..).1 hall
  obtain ⟨more, hmore⟩ := List.head?_eq_some_iff.1 hd
  exact ⟨d, more, hmore, of_decide_eq_true hcapital⟩

theorem row_capitalize {w : List Char} (hw : ∀ c ∈ w, isWordChar c = true) :
    Row (capitalize w) := by
  cases w with
  | nil => exact .nil
  | cons c rest =>
    obtain ⟨hc, hrest⟩ := List.forall_mem_cons.1 hw
    rw [capitalize]
    rcases upper_words hc with hupper | hupper
    · exact (Row.of_words hupper).append (.of_words hrest)
    · rw [hupper]
      exact .mark (.of_words hrest)

theorem capitalized_words {ws : List (List Char)} (hws : ∀ w ∈ ws, ∀ c ∈ w, isWordChar c = true) :
    Capitalized (ws.flatMap capitalize) := by
  induction ws with
  | nil => exact ⟨.nil, by simp⟩
  | cons w ws ih =>
    obtain ⟨hw, hrow⟩ := List.forall_mem_cons.1 hws
    rw [List.flatMap_cons]
    refine .append ⟨row_capitalize hw, ?_⟩ (ih hrow)
    cases w with
    | nil => simp [capitalize]
    | cons c rest =>
      obtain ⟨d, more, hupper, hd⟩ := upper_head (hw c (List.mem_cons_self ..))
      rw [capitalize, hupper]
      intro e he
      obtain rfl : d = e := by simpa using he
      exact hd

theorem ne_mark {c : Char} (hc : isWordChar c = true) : c ≠ 'ʼ' := by
  rintro rfl
  exact absurd hc (by decide)

/-- The name of any text is cased. -/
theorem cased_pascal (s : String) : Cased (pascal s).toList := by
  have hwords : Capitalized ((words s.toList).flatMap capitalize) :=
    capitalized_words (wordsFrom_chars (by simp))
  rw [pascal, String.toList_ofList, pascalChars]
  split
  · exact hwords.cased_underscore
  · exact hwords.cased

theorem capitalized_pascal {s : String} (h : s.toList.head? ≠ some '_') :
    Capitalized (pascal s).toList := by
  rw [pascal, String.toList_ofList, pascalChars, if_neg h]
  exact capitalized_words (wordsFrom_chars (by simp))

theorem capitalized_number (n : Nat) : Capitalized (toString n).toList := by
  have hdigits : ∀ c ∈ (toString n).toList, (c.isDigit || isSign c) = true :=
    over_number (by simp +contextual) n
  refine ⟨.of_words fun c hc => (wordChar_of_bad (hdigits c hc)).1, fun c hc => ?_⟩
  obtain ⟨hword, hletter, -⟩ := wordChar_of_bad (hdigits c (List.mem_of_mem_head? hc))
  exact (caseless hword hletter).2.1

theorem Cased.append {n m : List Char} (hn : Cased n) (hm : Capitalized m) : Cased (n ++ m) := by
  have happend := hn.capitalized.append hm
  rcases hn.start with h | h
  · rw [h]
    exact happend.cased
  · rw [h]
    exact happend.cased_underscore

/-! ## The name of a name -/

/-- Whether a cased name is its own name: it has no mark of `ŉ`, and either a small ASCII letter, or
no letter that another one stands for in lower case but its first, which is not `İ`. -/
def Settled (n : List Char) : Prop :=
  'ʼ' ∉ n ∧ (n.any Char.isLower = true ∨
    (letters n).head? ≠ some 'İ' ∧ ∀ c ∈ (letters n).tail, lower c = [c])

instance (n : List Char) : Decidable (Settled n) :=
  decidable_of_iff ('ʼ' ∉ n ∧ (n.any Char.isLower = true ∨
    (letters n).head? ≠ some 'İ' ∧ ((letters n).tail.all fun c => lower c = [c]) = true))
    (by simp [Settled])

/-- Whether the characters of a row are read as they are. -/
def Kept (f : Char → List Char) (cs : List Char) : Prop := ∀ c ∈ cs, c ≠ 'ʼ' ∧ f c = [c]

/-- Whether those after the first are, and that as one character. -/
def KeptLater (f : Char → List Char) (cs : List Char) : Prop :=
  'ʼ' ∉ cs ∧ (∀ c ∈ cs.head?, (f c).length = 1) ∧ ∀ c ∈ cs.tail, f c = [c]

/-- The name that is made of a row, read after a begun word. -/
def renamed (f : Char → List Char) (word cs : List Char) : List Char :=
  (wordsFrom word (cs.flatMap f)).flatMap capitalize

/-- How the characters of a name are read: as they are, or in lower case. -/
structure Reads (f : Char → List Char) : Prop where
  underscore : f '_' = ['_']
  mark : f 'ʼ' = ['ʼ']
  char : ∀ {c}, isWordChar c = true →
    ∃ d more, f c = d :: more ∧ isWordChar d = true ∧ (d = c → more = [])
  capital : ∀ {c}, isWordChar c = true → upper c = [c] →
    ∃ d more e, f c = d :: more ∧ isWordChar d = true ∧
      upper d = [e] ∧ e ≠ 'ʼ' ∧ (e = c ↔ more = [])

theorem reads_self : Reads fun c => [c] where
  underscore := rfl
  mark := rfl
  char {c} hc := ⟨c, [], rfl, hc, fun _ => rfl⟩
  capital {c} hc hupper := ⟨c, [], c, rfl, hc, hupper, ne_mark hc, by simp⟩

theorem reads_lower : Reads lower where
  underscore := by decide
  mark := by decide
  char {c} hc := by
    have hall := forall_wordChar
      (p := fun c => (lower c).head?.any fun d =>
        isWordChar d && (decide (d ≠ c) || (lower c).tail.isEmpty)) (by decide +kernel) hc
    obtain ⟨d, hd, hall⟩ := (Option.any_eq_true ..).1 hall
    obtain ⟨more, hmore⟩ := List.head?_eq_some_iff.1 hd
    obtain ⟨hword, htail⟩ := Bool.and_eq_true_iff.1 hall
    exact ⟨d, more, hmore, hword, by simpa [hmore, or_iff_not_imp_left] using htail⟩
  capital {c} hc hupper := by
    have hall := forall_wordChar
      (p := fun c => decide (upper c ≠ [c]) || (lower c).head?.any fun d => isWordChar d &&
        (upper d).head?.any fun e =>
          decide (upper d = [e] ∧ e ≠ 'ʼ' ∧ (e = c ↔ (lower c).tail = [])))
      (by decide +kernel) hc
    rw [hupper, decide_eq_false (by simp), Bool.false_or] at hall
    obtain ⟨d, hd, hall⟩ := (Option.any_eq_true ..).1 hall
    obtain ⟨more, hmore⟩ := List.head?_eq_some_iff.1 hd
    obtain ⟨hword, hall⟩ := Bool.and_eq_true_iff.1 hall
    obtain ⟨e, -, hall⟩ := (Option.any_eq_true ..).1 hall
    obtain ⟨hcapital, hmark, hkept⟩ := of_decide_eq_true hall
    exact ⟨d, more, e, hmore, hword, hcapital, hmark, by simpa [hmore] using hkept⟩

section
variable {f : Char → List Char} (hf : Reads f)
include hf

/-- What begins with a capital is read as a name that begins with one: with the same, if that is
read as one character. -/
theorem Reads.begins {c : Char} (hc : isWordChar c = true) (hcapital : upper c = [c])
    (cs : List Char) : ∃ e rest, renamed f [] (c :: cs) = e :: rest ∧ e ≠ 'ʼ' ∧
      (e = c ↔ (f c).length = 1) := by
  obtain ⟨d, more, e, hd, hdword, hupper, hmark, hsame⟩ := hf.capital hc hcapital
  obtain ⟨later, ws, hwords⟩ := wordsFrom_begun [d] (by simp) (more ++ cs.flatMap f)
  rw [renamed, List.flatMap_cons, hd, List.cons_append, wordsFrom, if_pos hdword, hwords,
    List.reverse_singleton, List.flatMap_cons, List.singleton_append, capitalize, hupper]
  exact ⟨e, _, rfl, hmark, hsame.trans (by simp)⟩

/-- A mark ends the word that is begun, and its letter begins the next one. -/
theorem Reads.mark_renamed (word cs : List Char) :
    renamed f word ('ʼ' :: cs) = capitalize word.reverse ++ renamed f [] cs := by
  rw [renamed, List.flatMap_cons, hf.mark, List.singleton_append, wordsFrom, if_neg (by decide)]
  split
  · rename_i hempty
    rw [List.isEmpty_iff.1 hempty]
    rfl
  · rw [List.flatMap_cons]
    rfl

/-- What a row is read as after a begun word: it follows the word, if it is kept, or it has another
character somewhere. -/
theorem Reads.after {cs : List Char} (hrow : Row cs) {word : List Char} (hword : word ≠ []) :
    SameIf (Kept f cs) (capitalize word.reverse ++ cs) (renamed f word cs) := by
  have hreverse : word.reverse ≠ [] := by simpa using hword
  induction hrow generalizing word with
  | nil =>
    refine .inl ⟨by simp [Kept], ?_⟩
    rw [renamed, List.flatMap_nil, wordsFrom, if_neg (by simpa using hword)]
    simp
  | @char c cs hc hrow ih =>
    obtain ⟨d, more, hd, hdword, hsame⟩ := hf.char hc
    rw [renamed, List.flatMap_cons, hd, List.cons_append, wordsFrom, if_pos hdword]
    by_cases hdc : d = c
    · subst hdc
      obtain rfl := hsame rfl
      have hkept : Kept f (d :: cs) ↔ Kept f cs := by simp [Kept, hd, ne_mark hc]
      have hlonger := @ih (d :: word) (by simp) (by simp)
      rwa [List.reverse_cons, capitalize_append hreverse, List.append_assoc,
        List.singleton_append, ← hkept] at hlonger
    · refine .inr ⟨fun h => hdc ?_, ?_⟩
      · have hkept := (h c (List.mem_cons_self ..)).2
        rw [hd] at hkept
        exact (List.cons.inj hkept).1
      · obtain ⟨later, ws, hwords⟩ := wordsFrom_begun (d :: word) (by simp) (more ++ cs.flatMap f)
        rw [hwords, List.flatMap_cons, List.reverse_cons, List.append_assoc,
          capitalize_append hreverse, List.append_assoc]
        exact ⟨_, c, d, cs, _, rfl, rfl, Ne.symm hdc⟩
  | @mark cs hrow _ =>
    obtain ⟨e, rest, hnext, hmark, -⟩ := hf.begins (c := 'N') (by decide) (by decide) cs
    rw [hf.mark_renamed, hnext]
    exact .inr ⟨fun h => (h 'ʼ' (List.mem_cons_self ..)).1 rfl,
      _, 'ʼ', e, _, rest, rfl, rfl, Ne.symm hmark⟩

/-- A row that starts with a capital is the name that is made of it, if all after that is kept; else
that has another character somewhere. -/
theorem Reads.row {cs : List Char} (h : Capitalized cs) :
    SameIf (KeptLater f cs) cs (renamed f [] cs) := by
  obtain ⟨hrow, hcapital⟩ := h
  cases hrow with
  | nil => exact .inl ⟨by simp [KeptLater], by simp [renamed, wordsFrom]⟩
  | @char c cs hc hrow =>
    by_cases hone : (f c).length = 1
    · obtain ⟨d, more, e, hd, hdword, hupper, -, hsame⟩ := hf.capital hc (hcapital c rfl)
      obtain rfl : more = [] := by simpa [hd] using hone
      obtain rfl := hsame.2 rfl
      have hkept : KeptLater f (e :: cs) ↔ Kept f cs := by
        simp only [KeptLater, Kept, List.mem_cons, not_or, List.head?_cons, Option.mem_def,
          Option.some.injEq, forall_eq', hone, List.tail_cons, (ne_mark hc).symm,
          not_false_eq_true, true_and]
        exact ⟨fun h c hc => ⟨fun heq => h.1 (heq ▸ hc), h.2 c hc⟩,
          fun h => ⟨fun hmem => (h _ hmem).1 rfl, fun c hc => (h c hc).2⟩⟩
      have hword : capitalize [d].reverse ++ cs = e :: cs := by
        rw [List.reverse_singleton, capitalize, hupper]
        rfl
      have hbegun : renamed f [] (e :: cs) = renamed f [d] cs := by
        rw [renamed, List.flatMap_cons, hd, List.singleton_append, wordsFrom, if_pos hdword]
        rfl
      rw [hkept, hbegun, ← hword]
      exact hf.after hrow (by simp)
    · obtain ⟨e, rest, hname, -, hsame⟩ := hf.begins hc (hcapital c rfl) cs
      rw [hname]
      exact .inr ⟨fun h => hone (h.2.1 c rfl), [], c, e, cs, rest, rfl, rfl,
        fun heq => hone (hsame.1 heq.symm)⟩
  | @mark cs hrow =>
    obtain ⟨e, rest, hnext, hmark, -⟩ := hf.begins (c := 'N') (by decide) (by decide) cs
    rw [hf.mark_renamed, hnext]
    exact .inr ⟨fun h => h.1 (List.mem_cons_self ..), [], 'ʼ', e, _, rest, rfl, rfl, Ne.symm hmark⟩

end

theorem keptLater_self {cs : List Char} : KeptLater (fun c => [c]) cs ↔ 'ʼ' ∉ cs := by
  simp [KeptLater]

/-- In lower case, only `İ` is read as two characters. -/
theorem keptLater_lower {cs : List Char} (hrow : Row cs) : KeptLater lower cs ↔
    'ʼ' ∉ cs ∧ cs.head? ≠ some 'İ' ∧ ∀ c ∈ cs.tail, lower c = [c] := by
  refine and_congr_right fun hmark => and_congr_left fun _ => ?_
  cases hrow with
  | nil => simp
  | @char c cs hc _ =>
    have hall := forall_wordChar (p := fun c => decide ((lower c).length = 1 ↔ c ≠ 'İ'))
      (by decide +kernel) hc
    simpa using of_decide_eq_true hall
  | mark _ => exact absurd (List.mem_cons_self ..) hmark

section
variable {n : List Char} (h : Cased n)
include h

/-- A cased name is read as it is, or in lower case, and settled if its letters are kept. -/
theorem Cased.reads : ∃ f, Reads f ∧
    (if n.any Char.isLower then n else lowerAll n) = n.flatMap f ∧
    (Settled n ↔ KeptLater f (letters n)) := by
  have hmark : 'ʼ' ∉ n ↔ 'ʼ' ∉ letters n := by
    rcases h.start with hn | hn
    · rw [← hn]
    · conv_lhs => rw [hn]
      simp
  by_cases hlower : n.any Char.isLower = true
  · refine ⟨_, reads_self, by simp [hlower], ?_⟩
    rw [keptLater_self, Settled, hmark]
    simp [hlower]
  · refine ⟨_, reads_lower, by simp [hlower, lowerAll], ?_⟩
    rw [keptLater_lower h.capitalized.row, Settled, hmark]
    simp [hlower]

/-- The name of a cased name is the same where it is settled, and else has another character
somewhere. -/
theorem Cased.pascal : SameIf (Settled n) n (pascalChars n) := by
  obtain ⟨f, hf, hread, hsettled⟩ := h.reads
  have hrow := hf.row h.capitalized
  rw [← hsettled] at hrow
  rw [pascalChars, words, hread]
  rcases h.start with hn | hn
  · have hhead : n.head? ≠ some '_' := hn ▸ h.capitalized.row.head?_ne
    rw [if_neg hhead]
    rwa [← hn] at hrow
  · have hhead : n.head? = some '_' := by rw [hn, List.head?_cons]
    have hwords : wordsFrom [] (n.flatMap f) = wordsFrom [] ((letters n).flatMap f) := by
      conv_lhs => rw [hn]
      rw [List.flatMap_cons, hf.underscore, List.singleton_append, wordsFrom, if_neg (by decide),
        if_pos List.isEmpty_nil]
    rw [if_pos hhead, hwords]
    have happend := hrow.append_left ['_']
    rwa [List.singleton_append, ← hn] at happend

end

section
variable {n : String} (h : Cased n.toList)
include h

/-- A cased name is its own name just where it is settled. -/
theorem Cased.pascal_eq_iff : Name.pascal n = n ↔ Settled n.toList := by
  rw [← String.toList_inj, Name.pascal, String.toList_ofList, h.pascal.eq_iff]

/-- What is added to the name of a cased name begins with that just where it is settled. -/
theorem Cased.prefix_iff (more : String) :
    n.toList <+: (Name.pascal n ++ more).toList ↔ Settled n.toList := by
  rw [String.toList_append, Name.pascal, String.toList_ofList, h.pascal.prefix_iff]

end
end Name

/-! ## Names of members and parts -/

namespace Resolve

section
variable {ctx : Context} {parent : String} {key : Value} {m : String}

/-- The name of a member begins with the name of its parent's name. -/
theorem MemberName.begins (h : MemberName ctx parent key m) :
    ∃ more, m = Name.pascal parent ++ more := by
  cases h with
  | child hname =>
    obtain ⟨child, -, rfl | rfl⟩ := childName_ok hname
    · exact ⟨child, rfl⟩
    · exact ⟨child ++ "Property", String.append_assoc ..⟩
  | again hname _ =>
    obtain ⟨child, -, rfl | rfl⟩ := childName_ok hname
    · exact ⟨child ++ _, String.append_assoc ..⟩
    · exact ⟨child ++ ("Property" ++ _), by rw [String.append_assoc, String.append_assoc]⟩

/-- It is cased itself, unless its key starts with an underscore. -/
theorem MemberName.cased (h : MemberName ctx parent key m)
    (hkey : ∀ s, key.text? = some s → s.toList.head? ≠ some '_') : Name.Cased m.toList := by
  have hchild {name : String} (hname : childName ctx parent key = .ok name) :
      Name.Cased name.toList := by
    obtain ⟨child, hform, hcases⟩ := childName_ok hname
    have hcapital : Name.Capitalized child.toList := by
      unfold Form.pascal at hform
      split at hform
      · rename_i s hs
        obtain rfl := Except.ok.inj hform
        exact Name.capitalized_pascal (hkey s hs)
      · split at hform
        · simp [Form.fail] at hform
        · obtain rfl := Except.ok.inj hform
          exact ⟨.nil, by simp⟩
    have hproperty : Name.Capitalized "Property".toList := by
      have hword : Name.pascal "Property" = "Property" := by decide
      rw [← hword]
      exact Name.capitalized_pascal (by decide)
    rcases hcases with rfl | rfl
    · rw [String.toList_append]
      exact (Name.cased_pascal parent).append hcapital
    · rw [String.toList_append, String.toList_append]
      exact ((Name.cased_pascal parent).append hcapital).append hproperty
  cases h with
  | child hname => exact hchild hname
  | again hname _ =>
    rw [String.toList_append]
    exact (hchild hname).append (Name.capitalized_number _)

end

end Resolve

/-- The name of the name of a text is the same just where that is settled. It is cased, and of any
cased name: the names of its members and parts begin with it, and the enum that its parts are merged
to is declared under it, just where it is settled. The names of members are cased themselves, but
for those whose keys begin with an underscore. -/
theorem recased_names (s : String) :
    (Name.pascal (Name.pascal s) = Name.pascal s ↔ Name.Settled (Name.pascal s).toList) ∧
    Name.Cased (Name.pascal s).toList ∧
    (∀ n : String, Name.Cased n.toList →
      (∀ ctx keys names, Resolve.childNames ctx (some n) keys = .ok names →
        ∀ key m, (key, some m) ∈ keys.zip names →
          (n.toList <+: m.toList ↔ Name.Settled n.toList)) ∧
      (∀ keyword count m, Resolve.numbered (Resolve.partName (some n) keyword) count = some m →
        (n.toList <+: m.toList ↔ Name.Settled n.toList)) ∧
      ∀ keyword (parts : List Resolved), 1 < parts.length → parts.all (·.isEnum) = true →
        ∃ d, (Resolve.combine keyword (some n) parts).declarations =
            Resolve.declarationsOf parts ++ [d] ∧
          (d.name = n ↔ Name.Settled n.toList)) ∧
    ∀ ctx parent keys names, Resolve.childNames ctx parent keys = .ok names →
      ∀ key m, (key, some m) ∈ keys.zip names →
        (∀ s, key.text? = some s → s.toList.head? ≠ some '_') → Name.Cased m.toList := by
  have hcased := Name.cased_pascal s
  refine ⟨hcased.pascal_eq_iff, hcased, fun n hn => ⟨?members, ?parts, ?enums⟩, ?cased⟩
  case members =>
    intro ctx keys names hnames key m hkey
    obtain ⟨parent, hparent, hmember⟩ := Resolve.childNames_named hnames hkey
    obtain rfl := Option.some.inj hparent
    obtain ⟨more, rfl⟩ := hmember.begins
    exact hn.prefix_iff more
  case parts =>
    intro keyword count m hm
    obtain rfl := Option.some.inj hm
    split
    · exact hn.prefix_iff _
    · dsimp only
      rw [String.append_assoc]
      exact hn.prefix_iff _
  case enums =>
    intro keyword parts hparts henums
    rw [Resolve.combine_eq_mergedEnum keyword n hparts henums]
    exact ⟨_, rfl, hn.pascal_eq_iff⟩
  case cased =>
    intro ctx parent keys names hnames key m hkey hstart
    obtain ⟨p, -, hmember⟩ := Resolve.childNames_named hnames hkey
    exact hmember.cased hstart

/-- A context without components. -/
def bareContext : Context := Context.start [("/api.json", .map [])] "/api.json" (.map [])

theorem recased_names_pet :
    Name.Cased "Pet".toList ∧ Name.Settled "Pet".toList ∧
      Resolve.childNames bareContext (some "Pet") [.text "tag"] = .ok [some "PetTag"] ∧
      "Pet".toList <+: "PetTag".toList ∧ Name.Cased "PetTag".toList ∧
      Resolve.partName (some "Pet") .allOf = some "PetAllOf" ∧
      "Pet".toList <+: "PetAllOf".toList ∧
      ∃ d, (Resolve.combine .oneOf (some "Pet") [Resolve.enum [] [.text "cat"],
        Resolve.enum [] [.text "dog"]]).declarations = [d] ∧ d.name = "Pet" := by
  obtain ⟨-, hcased, hnamed, hmade⟩ := recased_names "pet"
  have hsettled : Name.Settled "Pet".toList := by decide
  have hnames :
      Resolve.childNames bareContext (some "Pet") [.text "tag"] = .ok [some "PetTag"] := by
    decide +kernel
  obtain ⟨hmembers, hparts, henums⟩ := hnamed "Pet" hcased
  have hzip : ((Value.text "tag", some "PetTag") : Value × Option String) ∈
      [Value.text "tag"].zip [some "PetTag"] := List.mem_singleton_self _
  obtain ⟨d, hd, hname⟩ := henums .oneOf [Resolve.enum [] [.text "cat"],
    Resolve.enum [] [.text "dog"]] (by decide) (by decide)
  refine ⟨hcased, hsettled, hnames, (hmembers _ _ _ hnames _ _ hzip).2 hsettled,
    hmade _ _ _ _ hnames _ _ hzip ?_, rfl,
    (hparts .allOf 0 _ rfl).2 hsettled, d, hd, hname.2 hsettled⟩
  rintro s hs
  obtain rfl : "tag" = s := Option.some.inj hs
  decide

/-- Two words of one capital each are one name of capitals, whose own name has one only. -/
theorem recased_names_capitals :
    Name.pascal "a_b" = "AB" ∧ Name.pascal (Name.pascal "a_b") = "Ab" ∧
      Resolve.childNames bareContext (some (Name.pascal "a_b")) [.text "tag"] =
        .ok [some "AbTag"] ∧
      ¬ (Name.pascal "a_b").toList <+: "AbTag".toList := by
  decide +kernel

end ApiTypes

import ApiTypes.Proofs.Meaning
import ApiTypes.Proofs.TypeTexts

/-!
# Types read back from their texts

* `Written.read` : what the text of a type says. `|` joins less than `&`, both join less than the
  brackets of a list, and parentheses keep together what they enclose;
* `Written.same_between` : operands that are joined in a text are read one by one;
* `Written.membersOf_render` : so are the members of an object type;
* `Written.same_read` : the text of a type in which each operator joins what it is meant to says
  what the type says;
* `Resolve.same_read`, `Resolve.meaning_read` : so does the text of every schema's type, and it has
  the values of the type.
-/

namespace ApiTypes

/-- The character that an operator is written with. -/
def Operator.mark : Operator → Char
  | and => '&'
  | or => '|'

namespace Written
open Text

/-! ## The reader -/

/-- Types that an operator joins; one alone is joined with nothing. -/
def joined (op : Operator) : List Written → Written
  | [w] => w
  | ws => .join op ws

/-- What a part of a text says by what stands between the marks of an operator in it. -/
def between (op : Operator) (read : List (Char × Bool) → Written) (part : List (Char × Bool)) :
    Written :=
  joined op ((part.splitOnP (· = (op.mark, true))).map read)

/-- A member of an object type: what stands before its first colon, and the type after that. -/
def memberOf? (read : List Char → Written) (part : List (Char × Bool)) :
    Option (String × Written) :=
  match part.dropWhile (· ≠ (':', true)) with
  | [] => none
  | _ :: type => some (trimmed (part.takeWhile (· ≠ (':', true))), read (type.map Prod.fst))

/-- The members that stand between braces. -/
def membersOf (read : List Char → Written) (inner : List Char) : List (String × Written) :=
  ((levels (.code 0) inner).splitOnP (· = (';', true))).filterMap (memberOf? read)

/-- What a text without operators says: a list by its last brackets, what parentheses enclose, an
object type, or a word. -/
def operandOf (read : List Char → Written) (s : List Char) : Written :=
  if ['[', ']'] <:+ s then .array (read s.dropLast.dropLast)
  else match s with
    | '(' :: rest => read rest.dropLast
    | '{' :: rest => .object (membersOf read rest.dropLast)
    | _ => .word (String.ofList s)

/-- What an operand says, without the blanks around it. -/
def trimmedOf (read : List Char → Written) (part : List (Char × Bool)) : Written :=
  operandOf read (trimmed part).toList

/-- What a text says. No bracket holds as much as the text that it stands in, so there are fewer
steps than characters. -/
def readWithin : Nat → List Char → Written
  | 0, s => .word (String.ofList s)
  | steps + 1, s =>
    between .or (between .and (trimmedOf (readWithin steps))) (levels (.code 0) s)

def read (s : String) : Written := readWithin (s.length + 1) s.toList

example : read "(Cat | Dog)[] & \x7b[key: string]: 'a|b'\x7d | null" =
    .join .or [.join .and [.array (.join .or [.word "Cat", .word "Dog"]),
      .object [("[key: string]", .word "'a|b'")]], .word "null"] := by rfl

theorem readWithin_succ (steps : Nat) (s : List Char) : readWithin (steps + 1) s =
    between .or (between .and (trimmedOf (readWithin steps))) (levels (.code 0) s) := rfl

theorem same_joined (op : Operator) (ws : List Written) : Same (joined op ws) (.join op ws) := by
  unfold joined
  split
  · exact (Same.single _ _).symm
  · exact .refl _

theorem not_list {s : List Char} {c : Char} (hc : c ≠ ']') : ¬ ['[', ']'] <:+ s ++ [c] := by
  rintro ⟨before, htext⟩
  have hlast := congrArg List.getLast? htext
  simp only [List.getLast?_append, List.getLast?_cons_cons, List.getLast?_singleton,
    Option.some_or, Option.some.injEq] at hlast
  exact hc hlast.symm

theorem operandOf_list (read : List Char → Written) (s : List Char) :
    operandOf read (s ++ ['[', ']']) = .array (read s) := by
  rw [operandOf.eq_def, if_pos (List.suffix_append _ _)]
  simp

theorem operandOf_paren (read : List Char → Written) (s : List Char) :
    operandOf read ('(' :: (s ++ [')'])) = read s := by
  have hlist : ¬ ['[', ']'] <:+ '(' :: (s ++ [')']) := not_list (s := '(' :: s) (by decide)
  rw [operandOf.eq_def, if_neg hlist]
  simp

theorem operandOf_braces (read : List Char → Written) (s : List Char) :
    operandOf read ('{' :: (s ++ ['}'])) = .object (membersOf read s) := by
  have hlist : ¬ ['[', ']'] <:+ '{' :: (s ++ ['}']) := not_list (s := '{' :: s) (by decide)
  rw [operandOf.eq_def, if_neg hlist]
  simp

/-! ## Blanks -/

/-- Readers to which blanks around a part of a text say nothing. -/
structure Trims (read : List (Char × Bool) → Written) : Prop where
  left : ∀ part, read ((' ', true) :: part) = read part
  right : ∀ part, read (part ++ [(' ', true)]) = read part

theorem trims_trimmedOf (read : List Char → Written) : Trims (trimmedOf read) where
  left part := by simp [trimmedOf, trimmed]
  right part := by
    have htrimmed : trimmed (part ++ [(' ', true)]) = trimmed part := by
      unfold trimmed
      rw [List.map_append, List.dropWhile_append]
      split
      · rename_i hblank
        rw [List.isEmpty_iff.1 hblank]
        rfl
      · rw [List.map_singleton, List.rdropWhile_concat_pos _ _ _ (by simp)]
    rw [trimmedOf, htrimmed, trimmedOf]

/-- What is added at the end of a list is added to the last part that it is split into. -/
theorem map_splitOnP_concat {α β : Type} {p : α → Bool} {x : α} (hx : p x = false) (s : List α)
    {f : List α → β} (hf : ∀ part, f (part ++ [x]) = f part) :
    ((s ++ [x]).splitOnP p).map f = (s.splitOnP p).map f := by
  induction s generalizing f with
  | nil =>
    rw [List.nil_append, List.splitOnP_eq_singleton (by simpa using hx), List.splitOnP_nil]
    exact congrArg ([·]) (hf [])
  | cons c s ih =>
    rw [List.cons_append, List.splitOnP_cons_eq_if_modifyHead,
      List.splitOnP_cons_eq_if_modifyHead]
    split
    · rw [List.map_cons, List.map_cons, ih hf]
    · have hrest := ih hf
      have hfirst := ih (f := fun part => f (c :: part)) fun part => hf (c :: part)
      obtain ⟨a, as, ha⟩ := List.exists_cons_of_ne_nil (List.splitOnP_ne_nil p (s ++ [x]))
      obtain ⟨b, bs, hb⟩ := List.exists_cons_of_ne_nil (List.splitOnP_ne_nil p s)
      rw [ha, hb] at hrest hfirst ⊢
      exact congrArg₂ (· :: ·) (List.cons.inj hfirst).1 (List.cons.inj hrest).2

section
variable {read : List (Char × Bool) → Written} (hread : Trims read) (op : Operator)
include hread

theorem map_splitOnP_blank (part : List (Char × Bool)) :
    (((' ', true) :: part).splitOnP (· = (op.mark, true))).map read =
      (part.splitOnP (· = (op.mark, true))).map read := by
  obtain ⟨first, rest, hparts⟩ :=
    List.exists_cons_of_ne_nil (List.splitOnP_ne_nil (· = (op.mark, true)) part)
  rw [List.splitOnP_cons_eq_if_modifyHead, if_neg (by cases op <;> decide), hparts,
    List.modifyHead_cons, List.map_cons, List.map_cons, hread.left]

theorem Trims.between : Trims (between op read) where
  left part := by rw [Written.between, map_splitOnP_blank hread, Written.between]
  right part := by
    rw [Written.between, map_splitOnP_concat (by cases op <;> decide) _ hread.right,
      Written.between]

/-! ## Operands -/

/-- The operands of a text that is joined are those of its parts. -/
theorem map_splitOnP_join {parts : List String} (hparts : parts ≠ [])
    (hnested : ∀ p ∈ parts, Nested p.toList) :
    ((levels (.code 0) (Text.join op.text parts).toList).splitOnP (· = (op.mark, true))).map read =
      (parts.map fun p =>
        ((levels (.code 0) p.toList).splitOnP (· = (op.mark, true))).map read).flatten := by
  induction parts with
  | nil => exact absurd rfl hparts
  | cons p rest ih =>
    obtain ⟨hp, hrest⟩ := List.forall_mem_cons.1 hnested
    cases rest with
    | nil => rw [join_singleton, List.map_singleton, List.flatten_singleton]
    | cons q rest =>
      have hlevels : levels (.code 0) (Text.join op.text (p :: q :: rest)).toList =
          (levels (.code 0) p.toList ++ [(' ', true)]) ++ (op.mark, true) ::
            ((' ', true) :: levels (.code 0) (Text.join op.text (q :: rest)).toList) := by
        have hmark : Nested op.text.toList := nested_of_bare (by cases op <;> decide)
        have hop : levels (.code 0) op.text.toList =
            [(' ', true), (op.mark, true), (' ', true)] := by
          cases op <;> rfl
        rw [join_cons_cons, String.toList_append, String.toList_append, levels_append hp,
          levels_append hmark, hop]
        simp
      rw [hlevels, List.splitOnP_append_cons _ _ (by simp), List.map_append,
        map_splitOnP_concat (by cases op <;> decide) _ hread.right, map_splitOnP_blank hread,
        ih (by simp) hrest]
      rfl

/-- Operands that are joined in a text are read one by one. -/
theorem same_between {parts : List String} (hparts : parts ≠ [])
    (hnested : ∀ p ∈ parts, Nested p.toList) :
    Same (Written.between op read (levels (.code 0) (Text.join op.text parts).toList))
      (.join op (parts.map fun p => Written.between op read (levels (.code 0) p.toList))) := by
  rw [Written.between, map_splitOnP_join hread op hparts hnested]
  refine (same_joined op _).trans ((Same.flatten op _).symm.trans ?_)
  rw [List.map_map]
  refine Same.join ?_ op
  rw [List.forall₂_map_left_iff, List.forall₂_map_right_iff, List.forall₂_same]
  exact fun p _ => (same_joined op _).symm

end

theorem splitOnP_of_not_mem {mark : Char} {part : List (Char × Bool)} (h : (mark, true) ∉ part) :
    part.splitOnP (· = (mark, true)) = [part] := by
  refine List.splitOnP_eq_singleton fun x hx => ?_
  rw [decide_eq_false_iff_not]
  rintro rfl
  exact h hx

/-- A part in which an operator does not occur is one operand. -/
theorem between_eq {op : Operator} {part : List (Char × Bool)} (h : (op.mark, true) ∉ part)
    (read : List (Char × Bool) → Written) : between op read part = read part := by
  rw [between, splitOnP_of_not_mem h]
  rfl

theorem readWithin_and {steps : Nat} {s : List Char} (h : ('|', true) ∉ levels (.code 0) s) :
    readWithin (steps + 1) s =
      between .and (trimmedOf (readWithin steps)) (levels (.code 0) s) := by
  rw [readWithin_succ]
  exact between_eq h _

theorem readWithin_operand {steps : Nat} {s : List Char} (hor : ('|', true) ∉ levels (.code 0) s)
    (hand : ('&', true) ∉ levels (.code 0) s) :
    readWithin (steps + 1) s = trimmedOf (readWithin steps) (levels (.code 0) s) := by
  rw [readWithin_and hor]
  exact between_eq hand _

/-- A text that is joined says what its parts say, where none of them shows an operator that joins
less. -/
theorem same_readWithin_join (op : Operator) {parts : List String} (hparts : parts ≠ [])
    (hnested : ∀ p ∈ parts, Nested p.toList) (hor : op = .and → ∀ p ∈ parts, ¬ TopLevel '|' p)
    (steps : Nat) : Same (readWithin (steps + 1) (Text.join op.text parts).toList)
      (.join op (parts.map fun p => readWithin (steps + 1) p.toList)) := by
  have htrims := trims_trimmedOf (readWithin steps)
  cases op with
  | or => exact same_between (htrims.between .and) .or hparts hnested
  | and =>
    have hsep : Nested Operator.and.text.toList := nested_of_bare (by decide)
    have hwhole := not_topLevel_join hsep (by decide) hnested (hor rfl)
    rw [readWithin_and hwhole, List.map_congr_left fun p hp => readWithin_and (hor rfl p hp)]
    exact same_between htrims .and hparts hnested

/-- Blanks before a text say nothing. -/
theorem readWithin_blank (steps : Nat) (s : List Char) :
    readWithin (steps + 1) (' ' :: s) = readWithin (steps + 1) s := by
  have hlevels : levels (.code 0) (' ' :: s) = (' ', true) :: levels (.code 0) s :=
    levels_bare 0 (by decide) s
  rw [readWithin_succ, hlevels,
    (((trims_trimmedOf (readWithin steps)).between .and).between .or).left, readWithin_succ]

theorem readWithin_dropWhile (steps : Nat) (s : List Char) :
    readWithin (steps + 1) (s.dropWhile (· = ' ')) = readWithin (steps + 1) s := by
  induction s with
  | nil => rfl
  | cons c s ih =>
    by_cases hc : c = ' '
    · rw [List.dropWhile_cons_of_pos (by simpa using hc), ih, hc, readWithin_blank]
    · rw [List.dropWhile_cons_of_neg (by simpa using hc)]

/-! ## Words -/

/-- Texts that are one word: nothing that joins, encloses or ends a list. -/
structure IsWord (s : String) : Prop where
  or : ¬ TopLevel '|' s
  and : ¬ TopLevel '&' s
  first : s.toList.head? ∉ [some ' ', some '(', some '{']
  last : s.toList.getLast? ≠ some ' '
  list : ¬ ['[', ']'] <:+ s.toList

theorem trimmed_levels {s : List Char} (hfirst : s.head? ≠ some ' ')
    (hlast : s.getLast? ≠ some ' ') : trimmed (levels (.code 0) s) = String.ofList s := by
  have hdrop : s.dropWhile (· = ' ') = s := by
    cases s with
    | nil => rfl
    | cons c rest => exact List.dropWhile_cons_of_neg (by simpa using hfirst)
  rw [trimmed, map_fst_levels, hdrop, List.rdropWhile_eq_self_iff.2]
  intro hne hblank
  rw [List.getLast?_eq_some_getLast hne] at hlast
  exact hlast (congrArg some (of_decide_eq_true hblank))

theorem IsWord.readWithin {s : String} (h : IsWord s) (steps : Nat) :
    readWithin (steps + 1) s.toList = .word s := by
  obtain ⟨hblank, hround, hbrace⟩ : s.toList.head? ≠ some ' ' ∧ s.toList.head? ≠ some '(' ∧
      s.toList.head? ≠ some '{' := by simpa using h.first
  rw [readWithin_operand h.or h.and, trimmedOf, trimmed_levels hblank h.last,
    String.ofList_toList]
  unfold operandOf
  rw [if_neg h.list]
  split
  · rename_i htext
    exact absurd (htext ▸ rfl) hround
  · rename_i htext
    exact absurd (htext ▸ rfl) hbrace
  · rw [String.ofList_toList]

/-- Texts of characters that mean nothing in a type are words. -/
theorem isWord_of_over {s : String}
    (h : Over (fun c => c ∉ [' ', '(', '{', ']', '|', '&']) s) : IsWord s where
  or := not_topLevel_of_over h (by decide)
  and := not_topLevel_of_over h (by decide)
  first hfirst := by
    cases hhead : s.toList.head? with
    | none => simp [hhead] at hfirst
    | some c =>
      have hc := h c (List.mem_of_mem_head? hhead)
      simp only [hhead, List.mem_cons, Option.some.injEq, List.not_mem_nil, or_false] at hfirst hc
      tauto
  last hlast := h ' ' (List.mem_of_getLast? hlast) (by decide)
  list hlist := h ']' (hlist.subset (by simp)) (by decide)

end Written

/-! ## Names, values and members -/

/-- A name that stands in a type as one word: without quotes, slashes, brackets, blanks and what
separates types. Letters, digits, `_` and `$` are none of these. -/
def Name.Solid (n : String) : Prop :=
  Text.Over (fun c => Text.isBare c = true ∧ c ∉ [' ', '|', '&', ';']) n

instance (n : String) : Decidable (Name.Solid n) :=
  List.decidableBAll (fun c => Text.isBare c = true ∧ c ∉ [' ', '|', '&', ';']) n.toList

namespace Name.Solid
open Text

theorem plain {n : String} (h : Name.Solid n) : Name.Plain n := by
  intro c hc
  obtain ⟨hbare, hmark⟩ := h c hc
  refine ⟨hbare, ?_, ?_⟩ <;> rintro rfl <;> exact hmark (by decide)

theorem laws : Name.Laws Name.Solid := by
  refine .ofOver fun c hc => ⟨isBare_of (p := Name.isDeclarable) (by decide) hc, fun hmark => ?_⟩
  have hnone : ∀ d ∈ [' ', '|', '&', ';'], Name.isDeclarable d = false :=
    List.all_iff_forall_prop.1 (by decide)
  rw [hnone c hmark] at hc
  cases hc

theorem isWord {n : String} (h : Name.Solid n) : Written.IsWord n := by
  refine Written.isWord_of_over fun c hc hmark => ?_
  obtain ⟨hbare, hnot⟩ := h c hc
  have hnone : ∀ d ∈ [' ', '(', '{', ']', '|', '&'],
      isBare d = false ∨ d ∈ [' ', '|', '&', ';'] := List.all_iff_forall_prop.1 (by decide)
  rcases hnone c hmark with hd | hd
  · rw [hbare] at hd
    cases hd
  · exact hnot hd

end Name.Solid

namespace Enum
open Text

/-- The text of a value is quoted, or as plain as a name. -/
theorem solid_literal (v : Value) : (∃ s, literal v = quoted s) ∨ Name.Solid (literal v) := by
  rcases literal_cases v with ⟨-, hnull⟩ | hword | hnumber | hquoted
  · rw [hnull]
    exact .inr (by decide)
  · refine .inr ?_
    have hsolid : ∀ word ∈ ["true", "false"], Name.Solid word := by decide
    exact hsolid _ hword
  · refine .inr fun c hc => ⟨Name.isBare_of (by decide) (hnumber c hc), fun hmark => ?_⟩
    have hnone : ∀ d ∈ [' ', '|', '&', ';'], Binary64.isTextChar d ≠ true :=
      List.all_iff_forall_prop.1 (by decide)
    exact hnone c hmark (hnumber c hc)
  · exact .inl hquoted

theorem getLast?_quoted (s : String) : (quoted s).toList.getLast? = some '\'' := by
  rw [quoted, String.toList_ofList, ← List.cons_append, List.getLast?_concat]

theorem not_topLevel_literal (v : Value) {c : Char} (hc : c ∈ [' ', '|', '&', ';']) :
    ¬ TopLevel c (literal v) := by
  rcases solid_literal v with ⟨s, hquoted⟩ | hsolid
  · rw [hquoted]
    exact not_topLevel_quoted s c
  · exact not_topLevel_of_over hsolid fun h => h.2 hc

theorem isWord_literal (v : Value) : Written.IsWord (literal v) := by
  rcases solid_literal v with ⟨s, hquoted⟩ | hsolid
  · have hlast := getLast?_quoted s
    rw [hquoted]
    refine ⟨not_topLevel_quoted s _, not_topLevel_quoted s _, ?_, ?_, fun hlist => ?_⟩
    · rw [quoted, String.toList_ofList, List.head?_cons]
      decide
    · rw [hlast]
      decide
    · obtain ⟨before, htext⟩ := hlist
      rw [← htext, List.getLast?_append, List.getLast?_cons_cons, List.getLast?_singleton,
        Option.some_or] at hlast
      exact absurd hlast (by decide)
  · exact hsolid.isWord

end Enum

/-- No blank stands at the end of what is before the colon of a member. -/
theorem MemberHead.trimmed_text (h : MemberHead) :
    Text.trimmed (Text.levels (.code 0) h.text.toList) = h.text := by
  have hkey : ∃ c, (Name.member h.key).toList.getLast? = some c ∧ c ≠ ' ' := by
    rcases Name.member_chars h.key with hquoted | ⟨hne, hover⟩
    · rw [hquoted]
      exact ⟨'\'', Enum.getLast?_quoted _, by decide⟩
    · have hnil : (Name.member h.key).toList ≠ [] :=
        fun hnil => hne (String.toList_eq_nil_iff.1 hnil)
      refine ⟨_, List.getLast?_eq_some_getLast hnil, fun hblank => ?_⟩
      rcases hover ' ' (hblank ▸ List.getLast_mem hnil) with hc | hc <;> revert hc <;> decide
  obtain ⟨c, hlast, hc⟩ := hkey
  rw [Written.trimmed_levels, String.ofList_toList]
  · simp [text]
  · rw [text, String.toList_append, String.toList_append, List.getLast?_append,
      List.getLast?_append, hlast]
    cases h.isOptional with
    | false => simpa using hc
    | true => simp

namespace Written
open Text

/-! ## Members -/

variable {read : List Char → Written}

theorem memberOf?_levels {head type : String} (h : Nested head.toList)
    (hcolon : ¬ TopLevel ':' head) :
    memberOf? read (levels (.code 0) (head ++ ": " ++ type).toList) =
      some (trimmed (levels (.code 0) head.toList), read (' ' :: type.toList)) := by
  have hlevels : levels (.code 0) (head ++ ": " ++ type).toList = levels (.code 0) head.toList ++
      (':', true) :: (' ', true) :: levels (.code 0) type.toList := by
    rw [String.append_assoc, String.toList_append, levels_append h, String.toList_append]
    rfl
  have hhead : ∀ x ∈ levels (.code 0) head.toList, decide (x ≠ (':', true)) = true := by
    rintro x hx
    rw [decide_eq_true_eq]
    rintro rfl
    exact hcolon hx
  rw [hlevels, memberOf?, List.dropWhile_append_of_pos hhead, List.takeWhile_append_of_pos hhead]
  simp [map_fst_levels]

theorem membersOf_render {ms : List (MemberHead × TypeExpr)}
    (hcomments : ∀ m ∈ ms, ∀ c ∈ m.1.comment, c.Guarded)
    (htypes : ∀ m ∈ ms, Quiet [';'] m.2.render) :
    membersOf read (TypeExpr.renderMembers ms ++ "\n").toList =
      ms.map fun m => (m.1.text, read (' ' :: m.2.render.toList)) := by
  induction ms with
  | nil => rfl
  | cons m rest ih =>
    obtain ⟨hcomment, hcomments⟩ := List.forall_mem_cons.1 hcomments
    obtain ⟨htype, htypes⟩ := List.forall_mem_cons.1 htypes
    have hhead := MemberHead.quiet_text hcomment
    have hmember : Quiet [';'] (m.1.text ++ ": " ++ m.2.render) :=
      .append (.append ⟨hhead.nested, fun c hc => hhead.silent c (List.mem_cons_of_mem _ hc)⟩
        (quiet_of_all (by decide))) htype
    have hlevels : levels (.code 0) (TypeExpr.renderMembers (m :: rest) ++ "\n").toList =
        levels (.code 0) (m.1.text ++ ": " ++ m.2.render).toList ++
          (';', true) :: levels (.code 0) (TypeExpr.renderMembers rest ++ "\n").toList := by
      rw [TypeExpr.renderMembers_cons, MemberHead.render_eq]
      have htext : m.1.text ++ ": " ++ m.2.render ++ ";" ++ TypeExpr.renderMembers rest ++ "\n" =
          m.1.text ++ ": " ++ m.2.render ++ (";" ++ (TypeExpr.renderMembers rest ++ "\n")) := by
        simp only [String.append_assoc]
      rw [htext, String.toList_append, levels_append hmember.nested,
        String.toList_append (s := ";")]
      rfl
    have hrest := ih hcomments htypes
    rw [membersOf] at hrest
    rw [membersOf, hlevels, List.splitOnP_append_cons _ _ (by simp),
      splitOnP_of_not_mem (hmember.silent ';' (by decide)), List.filterMap_append, hrest,
      List.filterMap_cons,
      memberOf?_levels hhead.nested (hhead.silent ':' (by decide)), m.1.trimmed_text]
    rfl

/-- A member for any keys is alone in its object type. -/
theorem membersOf_anyKey {type : String} (h : Quiet [';'] type) :
    membersOf read (TypeExpr.anyKey ++ ": " ++ type).toList =
      [(TypeExpr.anyKey, read (' ' :: type.toList))] := by
  have hkey : Nested TypeExpr.anyKey.toList := TypeExpr.nested_anyKey .nil
  have hmark : Nested ": ".toList := nested_of_bare (by decide)
  have hmember : Quiet [';'] (TypeExpr.anyKey ++ ": " ++ type) :=
    .append ⟨TypeExpr.nested_anyKey hmark, List.forall_mem_singleton.2 (by decide)⟩ h
  rw [membersOf, splitOnP_of_not_mem (hmember.silent ';' (by decide)), List.filterMap_cons,
    memberOf?_levels hkey (by decide)]
  rfl

end Written

/-! ## Types -/

namespace TypeExpr
open Text

theorem mem_literals {values : List Value} {l : String} (h : l ∈ Enum.literals values) :
    ∃ v, l = Enum.literal v := by
  obtain ⟨v, -, rfl⟩ := List.mem_map.1 (Enum.mem_distinct.1 h)
  exact ⟨v, rfl⟩

theorem not_topLevel_valuesOf {constant : String} (h : Name.Solid constant) {mark : Char}
    (hmark : mark ∈ ['|', '&', ';']) : ¬ TopLevel mark (valuesOf constant).render := by
  have hconstant : mark ∉ constant.toList := fun hc =>
    (h mark hc).2 (List.mem_cons_of_mem _ hmark)
  have hrest : ∀ c ∈ ['|', '&', ';'], (c ∉ "typeof ".toList ∧ c ∉ "[keyof typeof ".toList) ∧
      c ∉ "]".toList := List.all_iff_forall_prop.1 (by decide)
  obtain ⟨⟨htypeof, hkeyof⟩, hclosing⟩ := hrest mark hmark
  have htext : mark ∉ (valuesOf constant).render.toList := by
    simp only [render_valuesOf, String.toList_append, List.mem_append, not_or]
    exact ⟨⟨⟨⟨htypeof, hconstant⟩, hkeyof⟩, hconstant⟩, hclosing⟩
  exact fun htop => htext htop.mem

/-- What separates the members of an object type stands in no type outside of everything. -/
theorem Clear.quiet {t : TypeExpr} (h : t.Clear Name.Solid) : Quiet [';'] t.render := by
  refine ⟨h.nests fun _ hn => hn.plain, List.forall_mem_singleton.2 ?_⟩
  induction h with
  | builtin b => cases b <;> decide
  | name hn => exact not_topLevel_of_over hn (by decide)
  | literals values =>
    rw [render_literals]
    split
    · decide
    · refine not_topLevel_join (nested_of_bare (by decide)) (by decide) ?_ ?_ <;>
        intro l hl <;> obtain ⟨v, rfl⟩ := mem_literals hl
      · exact Enum.nested_literal v
      · exact Enum.not_topLevel_literal v (by decide)
  | valuesOf hn => exact not_topLevel_valuesOf hn (by decide)
  | openRecord => decide
  | emptyObject => decide
  | paren ht => exact not_topLevel_paren (ht.nests fun _ hn => hn.plain) _
  | array ht _ _ ih =>
    exact not_topLevel_append (ht.nests fun _ hn => hn.plain) ih (by decide)
  | @join op ts _ hts _ ih =>
    rw [render_join]
    refine not_topLevel_join (nested_of_bare ?_) ?_ ?_ ?_
    · cases op <;> decide
    · cases op <;> decide
    · exact List.forall_mem_map.2 fun t ht => (hts t ht).nests fun _ hn => hn.plain
    · exact List.forall_mem_map.2 ih
  | object hcomments hts =>
    rw [render_object_eq]
    refine not_topLevel_braces (nested_members fun m hm => ⟨?_, ?_⟩) _
    · exact MemberHead.nested_render (hcomments m hm)
    · exact (hts m hm).nests fun _ hn => hn.plain
  | record ht =>
    rw [render_record_eq]
    exact not_topLevel_braces (nested_record (ht.nests fun _ hn => hn.plain)) _
  | nullable ht ih =>
    exact not_topLevel_append (ht.nests fun _ hn => hn.plain) ih (by decide)

end TypeExpr

namespace Written
open Text

/-- A text in brackets is one operand. -/
theorem readWithin_group (b : Bracket) {s : List Char} (h : Nested s) (steps : Nat) :
    readWithin (steps + 1) (b.opening :: (s ++ [b.closing])) =
      operandOf (readWithin steps) (b.opening :: (s ++ [b.closing])) := by
  rw [readWithin_operand (not_topLevel_group b h _) (not_topLevel_group b h _), trimmedOf,
    trimmed_levels, String.toList_ofList]
  · rw [List.head?_cons]
    cases b <;> decide
  · rw [← List.cons_append, List.getLast?_concat]
    cases b <;> decide

theorem readWithin_paren {s : String} (h : Nested s.toList) (steps : Nat) :
    readWithin (steps + 1) ("(" ++ s ++ ")").toList = readWithin steps s.toList := by
  rw [String.toList_append, String.toList_append]
  exact (readWithin_group .round h steps).trans (operandOf_paren _ _)

theorem readWithin_braces {s : String} (h : Nested s.toList) (steps : Nat) :
    readWithin (steps + 1) ("\x7b" ++ s ++ "\x7d").toList =
      .object (membersOf (readWithin steps) s.toList) := by
  rw [String.toList_append, String.toList_append]
  exact (readWithin_group .brace h steps).trans (operandOf_braces _ _)

/-- What stands before the brackets of a list is one operand of them, where it shows no operator. -/
theorem readWithin_list {s : String} (h : Nested s.toList) (hor : ¬ TopLevel '|' s)
    (hand : ¬ TopLevel '&' s) (steps : Nat) :
    readWithin (steps + 2) (s ++ "[]").toList = .array (readWithin (steps + 1) s.toList) := by
  have htrimmed : trimmed (levels (.code 0) (s ++ "[]").toList) =
      String.ofList (s.toList.dropWhile (· = ' ') ++ ['[', ']']) := by
    rw [trimmed, map_fst_levels, String.toList_append, List.dropWhile_append]
    split
    · rename_i hblank
      rw [List.isEmpty_iff.1 hblank]
      rfl
    · refine congrArg String.ofList (List.rdropWhile_eq_self_iff.2 fun hne hlast => ?_)
      rw [List.getLast_append_of_ne_nil _ (by simp)] at hlast
      exact absurd hlast (by decide)
  rw [readWithin_operand (not_topLevel_append h hor (by decide))
    (not_topLevel_append h hand (by decide)), trimmedOf, htrimmed, String.toList_ofList,
    operandOf_list, readWithin_dropWhile]

theorem isWord_valuesOf {constant : String} (h : Name.Solid constant) :
    IsWord (TypeExpr.valuesOf constant).render := by
  have htop : ∀ mark ∈ ['|', '&', ';'], ¬ TopLevel mark (TypeExpr.valuesOf constant).render :=
    fun _ => TypeExpr.not_topLevel_valuesOf h
  have htext : (TypeExpr.valuesOf constant).render.toList =
      "typeof ".toList ++ constant.toList ++ "[keyof typeof ".toList ++ constant.toList ++
        [']'] := by
    simp only [TypeExpr.render_valuesOf, String.toList_append]
    rfl
  refine ⟨htop _ (by decide), htop _ (by decide), by simp [TypeExpr.render_valuesOf], ?_, ?_⟩
  · rw [htext, List.getLast?_concat]
    decide
  · rw [htext]
    rintro ⟨before, hlist⟩
    -- what stands before the last bracket is a name or a blank
    have hbefore :=
      List.append_cancel_right ((List.append_assoc before ['['] [']']).trans hlist)
    have hlast := congrArg List.getLast? hbefore
    rw [List.getLast?_concat, List.getLast?_append, List.getLast?_append] at hlast
    cases hconstant : constant.toList.getLast? with
    | none =>
      rw [hconstant] at hlast
      revert hlast
      simp
    | some c =>
      rw [hconstant, Option.some_or] at hlast
      obtain rfl := Option.some.inj hlast
      exact absurd (h _ (List.mem_of_getLast? hconstant)).1 (by decide)

/-- A text between brackets leaves a step more than it needs. -/
theorem exists_step {n steps : Nat} (h : n + 2 ≤ steps) : ∃ k, steps = k + 1 ∧ n ≤ k :=
  ⟨steps - 1, by omega, by omega⟩

theorem length_inner (before s after : String) (h : before.length + after.length = 2) {steps : Nat}
    (hsteps : (before ++ s ++ after).length ≤ steps) : s.length + 2 ≤ steps := by
  rw [String.length_append, String.length_append] at hsteps
  omega

theorem length_le_join {sep p : String} {parts : List String} (h : p ∈ parts) :
    p.length ≤ (Text.join sep parts).length := by
  induction parts with
  | nil => cases h
  | cons q rest ih =>
    cases rest with
    | nil =>
      obtain rfl := List.mem_singleton.1 h
      rw [join_singleton]
    | cons r rest =>
      rw [join_cons_cons, String.length_append, String.length_append]
      rcases List.mem_cons.1 h with rfl | h
      · omega
      · have hrest := ih h
        omega

theorem length_le_renderMembers {m : MemberHead × TypeExpr} {ms : List (MemberHead × TypeExpr)}
    (h : m ∈ ms) : m.2.render.length ≤ (TypeExpr.renderMembers ms).length := by
  induction ms with
  | nil => cases h
  | cons n rest ih =>
    simp only [TypeExpr.renderMembers_cons, String.length_append]
    rcases List.mem_cons.1 h with rfl | h
    · omega
    · have hrest := ih h
      omega

theorem same_literals (values : List Value) (steps : Nat) :
    Same (readWithin (steps + 1) (TypeExpr.literals values).render.toList)
      (TypeExpr.literals values).written := by
  rw [TypeExpr.render_literals, TypeExpr.written]
  split
  · have hword : IsWord Builtin.never.text := Name.Solid.isWord (by decide)
    exact hword.readWithin steps ▸ .refl _
  · rename_i hne
    have hliterals : Enum.literals values ≠ [] := by
      cases values with
      | nil => exact absurd rfl hne
      | cons v rest => simp [Enum.literals, Enum.distinct]
    have hor : Operator.or ≠ .and := Operator.noConfusion
    refine (same_readWithin_join .or hliterals (fun l hl => ?_) (fun h => absurd h hor)
      steps).trans ?_
    · obtain ⟨v, rfl⟩ := TypeExpr.mem_literals hl
      exact Enum.nested_literal v
    · rw [List.map_congr_left]
      · exact .refl _
      · intro l hl
        obtain ⟨v, rfl⟩ := TypeExpr.mem_literals hl
        exact (Enum.isWord_literal v).readWithin steps

/-- A text with `null` after a bar is a union with it. -/
theorem same_nullable {t : TypeExpr} (h : t.Nests) (steps : Nat) :
    Same (readWithin (steps + 1) (TypeExpr.nullable t).render.toList)
      (.join .or [readWithin (steps + 1) t.render.toList, Written.null]) := by
  have htext : (TypeExpr.nullable t).render =
      Text.join Operator.or.text [t.render, Builtin.null.text] := by
    rw [join_cons_cons, join_singleton]
    rfl
  have hnull : IsWord Builtin.null.text := Name.Solid.isWord (by decide)
  have hnested : ∀ p ∈ [t.render, Builtin.null.text], Nested p.toList :=
    List.forall_mem_cons.2 ⟨h, List.forall_mem_singleton.2 (nested_of_bare (by decide))⟩
  rw [htext, Written.null, ← hnull.readWithin steps]
  have hor : Operator.or ≠ .and := Operator.noConfusion
  exact same_readWithin_join .or (by simp) hnested (fun h => absurd h hor) steps

/-- The text of a type in which each operator joins what it is meant to says what the type says. -/
theorem same_readWithin {t : TypeExpr} (h : t.Clear Name.Solid) {steps : Nat}
    (hsteps : t.render.length ≤ steps) :
    Same (readWithin (steps + 1) t.render.toList) t.written := by
  have hplain : ∀ n, Name.Solid n → Name.Plain n := fun _ hn => hn.plain
  induction h generalizing steps with
  | builtin b =>
    have hword : IsWord b.text := Name.Solid.isWord (by cases b <;> decide)
    exact hword.readWithin steps ▸ .refl _
  | name hn => exact hn.isWord.readWithin steps ▸ .refl _
  | literals values => exact same_literals values steps
  | valuesOf hn => exact (isWord_valuesOf hn).readWithin steps ▸ .refl _
  | openRecord =>
    obtain ⟨steps, rfl, -⟩ := exists_step ((Nat.le_add_left 2 20).trans hsteps)
    exact .refl _
  | emptyObject => exact .refl _
  | @paren t ht ih =>
    rw [TypeExpr.render_paren] at hsteps ⊢
    obtain ⟨steps, rfl, hrest⟩ := exists_step (length_inner "(" t.render ")" rfl hsteps)
    rw [readWithin_paren (ht.nests hplain), TypeExpr.written]
    exact ih hrest
  | @array t ht hor hand ih =>
    rw [TypeExpr.render_array, String.length_append] at hsteps
    obtain ⟨steps, rfl, hrest⟩ := exists_step hsteps
    rw [TypeExpr.render_array, readWithin_list (ht.nests hplain) hor hand, TypeExpr.written]
    exact .array (ih hrest)
  | @join op ts hne hts hor ih =>
    rw [TypeExpr.render_join] at hsteps ⊢
    rw [TypeExpr.written_join]
    refine (same_readWithin_join op (by simpa using hne)
      (List.forall_mem_map.2 fun t ht => (hts t ht).nests hplain)
      (fun hand => List.forall_mem_map.2 (hor hand)) steps).trans (.join ?_ op)
    rw [List.map_map, List.forall₂_map_left_iff, List.forall₂_map_right_iff, List.forall₂_same]
    exact fun t ht => ih t ht ((length_le_join (List.mem_map_of_mem ht)).trans hsteps)
  | @object ms hcomments hts ih =>
    rw [TypeExpr.render_object_eq] at hsteps ⊢
    obtain ⟨steps, rfl, hrest⟩ := exists_step (length_inner _ _ _ rfl hsteps)
    have hmembers := TypeExpr.nested_members fun m hm =>
      ⟨MemberHead.nested_render (hcomments m hm), (hts m hm).nests hplain⟩
    rw [readWithin_braces hmembers, TypeExpr.written_object,
      membersOf_render hcomments fun m hm => (hts m hm).quiet]
    refine .object ?_
    rw [List.forall₂_map_left_iff, List.forall₂_map_right_iff, List.forall₂_same]
    refine fun m hm => ⟨rfl, ?_⟩
    rw [String.length_append] at hrest
    rw [readWithin_blank]
    exact ih m hm ((length_le_renderMembers hm).trans (Nat.le_of_add_right_le hrest))
  | @record t ht ih =>
    rw [TypeExpr.render_record_eq] at hsteps ⊢
    obtain ⟨steps, rfl, hrest⟩ := exists_step (length_inner _ _ _ rfl hsteps)
    rw [String.length_append] at hrest
    have hvalues : membersOf (readWithin (steps + 1)) _ = _ := membersOf_anyKey ht.quiet
    have hkey : "[key: string]: " = TypeExpr.anyKey ++ ": " := by decide
    rw [readWithin_braces (TypeExpr.nested_record (ht.nests hplain)), TypeExpr.written, hkey,
      hvalues, readWithin_blank]
    exact .member _ [] [] (ih (Nat.le_of_add_left_le hrest))
  | @nullable t ht ih =>
    refine (same_nullable (ht.nests hplain) steps).trans (.operand .or [] _ (ih ?_))
    simp only [TypeExpr.render_nullable, String.length_append] at hsteps
    omega

/-- The text of a type in which each operator joins what it is meant to says what the type says. -/
theorem same_read {t : TypeExpr} (h : t.Clear Name.Solid) : Same (read t.render) t.written :=
  same_readWithin h le_rfl

end Written

/-! ## Types of schemas -/

namespace Resolve

/-- Solid names and suffixes make types in whose text each operator joins what it is meant to. -/
theorem solid_shape {ctx : Context} (hctx : ctx.SuffixesHave Name.Solid) {s : Schema}
    {name : Option String} {r : Resolved} (h : (shape ctx s name).outcome = .ok r)
    (hname : ∀ n ∈ name, Name.Solid n) : r.Clear Name.Solid :=
  (clearLaws Name.Solid.laws (fun _ hn => hn.plain) hctx).shape s name r h hname

/-- The text of a schema's type says what the type says. -/
theorem same_read {ctx : Context} (hctx : ctx.SuffixesHave Name.Solid) {s : Schema}
    {name : Option String} {combined : Bool} {r : Resolved}
    (h : (slot ctx s name combined).outcome = .ok r) (hname : ∀ n ∈ name, Name.Solid n) :
    Written.Same (Written.read r.type.render) r.type.written := by
  obtain ⟨_, hvalue, rfl⟩ := slot_ok.1 h
  obtain ⟨q, hq, rfl⟩ := value_ok.1 hvalue
  have hgiven := made_givenName hname
  exact Written.same_read (((solid_shape hctx hq hgiven).finish s).hoist hgiven combined).type

/-- So what is read in the text has the values of the type. -/
theorem meaning_read {ctx : Context} (hctx : ctx.SuffixesHave Name.Solid) {s : Schema}
    {name : Option String} {combined : Bool} {r : Resolved}
    (h : (slot ctx s name combined).outcome = .ok r) (hname : ∀ n ∈ name, Name.Solid n) {V : Type}
    (R : Written.Reading V) :
    (Written.read r.type.render).meaning R = r.type.meaning R.ofTypes :=
  ((same_read hctx h hname).meaning R).trans (r.type.meaning_written R)

end Resolve
end ApiTypes

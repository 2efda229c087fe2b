import ApiTypes.Proofs.Levels
import Mathlib.Data.Bool.AllAny

/-!
# The texts of types

* `MemberHead.nested_render`, `Enum.nested_literal` : heads of members and literals end every quoted
  literal, comment and bracket that they begin;
* `TypeExpr.Nests` : so does the text of a type;
* `Resolve.not_topLevel_guarded`, `Resolve.not_topLevel_operand` : what stands beside an operator
  shows none of those that would take it apart;
* `TypeExpr.Clear` : types in whose text each operator joins what it joins in the type;
* `Resolve.clearLaws` : the type of every schema is such.
-/

namespace ApiTypes

namespace Text

/-- A text that ends what it begins and shows none of some characters. -/
structure Quiet (marks : List Char) (s : String) : Prop where
  nested : Nested s.toList
  silent : ∀ c ∈ marks, ¬ TopLevel c s

variable {marks : List Char}

theorem Quiet.append {a b : String} (ha : Quiet marks a) (hb : Quiet marks b) :
    Quiet marks (a ++ b) where
  nested := by
    rw [String.toList_append]
    exact ha.nested.append hb.nested
  silent c hc := not_topLevel_append ha.nested (ha.silent c hc) (hb.silent c hc)

theorem quiet_of_over {s : String} (h : Over (fun c => isBare c = true ∧ c ∉ marks) s) :
    Quiet marks s where
  nested := nested_of_bare (List.all_eq_true.2 fun c hc => (h c hc).1)
  silent _ hc := not_topLevel_of_over h fun hover => hover.2 hc

theorem quiet_of_all {s : String}
    (h : (s.toList.all fun c => isBare c && !marks.contains c) = true) : Quiet marks s :=
  quiet_of_over fun c hc => by simpa using List.all_eq_true.1 h c hc

theorem quiet_if (b : Bool) {s : String}
    (h : (s.toList.all fun c => isBare c && !marks.contains c) = true) :
    Quiet marks (if b then s else "") := by
  cases b with
  | false => exact ⟨.nil, fun _ _ => by simp [TopLevel, levels]⟩
  | true => exact quiet_of_all h

end Text

/-- What stands before the colon of a member whose comment ends itself. -/
theorem MemberHead.quiet_text {h : MemberHead} (hcomment : ∀ c ∈ h.comment, c.Guarded) :
    Text.Quiet [':', ';'] h.text := by
  have hdoc : Text.Quiet [':', ';'] ((h.comment.map fun c => c.render true ++ "  ").getD "") := by
    cases hc : h.comment with
    | none => exact Text.quiet_of_all (by decide)
    | some c =>
      have hguarded := hcomment c hc
      refine .append ⟨Comment.nested_render hguarded true, fun mark hmark => ?_⟩
        (Text.quiet_of_all (by decide))
      refine Text.not_topLevel_comment hguarded true ?_
      rintro rfl
      exact absurd hmark (by decide)
  have hmember : Text.Quiet [':', ';'] (Name.member h.key) := by
    rcases Name.member_chars h.key with hquoted | ⟨-, hover⟩
    · rw [hquoted]
      exact ⟨Text.nested_quoted _, fun c _ => Text.not_topLevel_quoted _ c⟩
    · refine Text.quiet_of_over fun c hc => ?_
      have hmarks : ∀ d ∈ [':', ';'], d ≠ '\n' ∧ Name.isIdentifierChar d = false :=
        List.all_iff_forall_prop.1 (by decide)
      rcases hover c hc with rfl | hc
      · decide
      · refine ⟨Name.isBare_of (p := Name.isIdentifierChar) (by decide) hc, fun hmark => ?_⟩
        rw [(hmarks c hmark).2] at hc
        cases hc
  exact ((((Text.quiet_of_all (by decide)).append hdoc).append
    (Text.quiet_if _ (by decide))).append hmember).append (Text.quiet_if _ (by decide))

theorem MemberHead.nested_render {h : MemberHead} (hcomment : ∀ c ∈ h.comment, c.Guarded) :
    Text.Nested h.render.toList := by
  rw [render_eq, String.toList_append]
  exact (quiet_text hcomment).nested.append (Text.nested_of_bare (by decide))

/-! ## Literals -/

/-- A literal is a word, a number, or quoted. -/
theorem Enum.literal_cases (v : Value) : (v = .atom .null ∧ literal v = "null") ∨
    literal v ∈ ["true", "false"] ∨ Text.Over (Binary64.isTextChar · = true) (literal v) ∨
      ∃ s, literal v = Text.quoted s := by
  unfold literal
  split
  · exact .inl ⟨rfl, rfl⟩
  · refine .inr (.inl ?_)
    split <;> decide
  · rename_i n
    refine .inr (.inr (.inl ?_))
    have hnumber := Text.over_number fun c hc => Binary64.isTextChar_of_digit hc
    cases n with
    | ofNat n => exact hnumber n
    | negSucc n =>
      show Text.Over _ ("-" ++ toString (n + 1))
      rw [Text.Over, String.toList_append]
      exact List.forall_mem_append.2 ⟨List.all_eq_true.1 (by decide), hnumber (n + 1)⟩
  · rename_i x
    exact .inr (.inr (.inl x.over_text))
  · exact .inr (.inr (.inr ⟨_, rfl⟩))

theorem Enum.nested_literal (v : Value) : Text.Nested (literal v).toList := by
  rcases literal_cases v with ⟨-, hnull⟩ | hword | hnumber | ⟨s, hquoted⟩
  · rw [hnull]
    exact Text.nested_of_bare (by decide)
  · refine Text.nested_of_bare ?_
    revert hword
    generalize literal v = word
    revert word
    decide
  · exact Text.nested_of_bare (List.all_eq_true.2 fun c hc =>
      Name.isBare_of (by decide) (hnumber c hc))
  · rw [hquoted]
    exact Text.nested_quoted s

theorem Enum.mem_distinct {s : String} {ss : List String} : s ∈ distinct ss ↔ s ∈ ss := by
  induction ss with
  | nil => rw [distinct]
  | cons t rest ih =>
    rw [distinct, List.mem_cons, List.mem_cons, List.mem_filter, ih]
    by_cases h : s = t <;> simp [h]

/-! ## Types -/

namespace TypeExpr
open Text

/-- A type whose text ends what it begins. -/
def Nests (t : TypeExpr) : Prop := Nested t.render.toList

theorem nests_builtin (b : Builtin) : Nests (builtin b) :=
  nested_of_bare (by cases b <;> decide)

theorem render_literals (values : List Value) : (literals values).render =
    if values.isEmpty then Builtin.never.text
    else Text.join Operator.or.text (Enum.literals values) := rfl

theorem render_nullable (t : TypeExpr) : (nullable t).render = t.render ++ " | null" := rfl

theorem renderMembers_cons (m : MemberHead × TypeExpr) (rest : List (MemberHead × TypeExpr)) :
    renderMembers (m :: rest) = m.1.render ++ m.2.render ++ ";" ++ renderMembers rest := rfl

theorem nests_literals (values : List Value) : Nests (literals values) := by
  rw [Nests, render_literals]
  split
  · exact nested_of_bare (by decide)
  · refine nested_join (nested_of_bare (by decide)) fun l hl => ?_
    obtain ⟨v, -, rfl⟩ := List.mem_map.1 (Enum.mem_distinct.1 hl)
    exact Enum.nested_literal v

theorem nests_array {t : TypeExpr} (h : Nests t) : Nests (array t) := by
  rw [Nests, render_array, String.toList_append]
  exact h.append (.group .square .nil .nil)

theorem nests_paren {t : TypeExpr} (h : Nests t) : Nests (paren t) := by
  rw [Nests, render_paren, String.toList_append, String.toList_append]
  exact .group .round h .nil

theorem nests_join (op : Operator) {ts : List TypeExpr} (h : ∀ t ∈ ts, Nests t) :
    Nests (join op ts) := by
  rw [Nests, render_join]
  refine nested_join (nested_of_bare (by cases op <;> decide)) fun p hp => ?_
  obtain ⟨t, ht, rfl⟩ := List.mem_map.1 hp
  exact h t ht

theorem nests_nullable {t : TypeExpr} (h : Nests t) : Nests (nullable t) := by
  rw [Nests, render_nullable, String.toList_append]
  exact h.append (nested_of_bare (by decide))

/-- What stands for any key of an object type. -/
theorem nested_anyKey {more : List Char} (h : Nested more) :
    Nested ("[key: string]".toList ++ more) := by
  have hkey : Nested "key: string".toList := nested_of_bare (by decide)
  exact (Nested.group .square hkey .nil).append h

theorem nested_openRecord : Nested " [key: string]: any ".toList := by
  have hvalues : Nested ": any ".toList := nested_of_bare (by decide)
  exact .bare (by decide) (nested_anyKey hvalues)

theorem nests_openRecord : Nests openRecord := .group .brace nested_openRecord .nil

theorem nests_emptyObject : Nests emptyObject := .group .brace .nil .nil

theorem nests_valuesOf {constant : String} (h : Name.Plain constant) :
    Nests (valuesOf constant) := by
  have hkey : Nested ("keyof typeof ".toList ++ constant.toList) :=
    (nested_of_bare (by decide)).append h.nested
  have hnested := ((nested_of_bare (s := "typeof ".toList) (by decide)).append h.nested).append
    (Nested.group .square hkey .nil)
  rw [Nests, render_valuesOf]
  simpa [Bracket.opening, Bracket.closing] using hnested

theorem nested_braces {inner : String} (h : Nested inner.toList) :
    Nested ("\x7b" ++ inner ++ "\x7d").toList := by
  rw [String.toList_append, String.toList_append]
  exact .group .brace h .nil

/-- An object type of any keys by what stands between its braces. -/
theorem render_record_eq (t : TypeExpr) :
    (record t).render = "\x7b" ++ ("[key: string]: " ++ t.render) ++ "\x7d" := by
  rw [render_record, ← String.append_assoc]
  rfl

theorem nested_record {t : TypeExpr} (h : Nests t) :
    Nested ("[key: string]: " ++ t.render).toList := by
  have hmark : Nested ": ".toList := nested_of_bare (by decide)
  rw [String.toList_append]
  exact (nested_anyKey hmark).append h

theorem nests_record {t : TypeExpr} (h : Nests t) : Nests (record t) := by
  rw [Nests, render_record_eq]
  exact nested_braces (nested_record h)

/-- An object type by what stands between its braces. -/
theorem render_object_eq (members : List (MemberHead × TypeExpr)) :
    (object members).render = "\x7b" ++ (renderMembers members ++ "\n") ++ "\x7d" := by
  rw [render_object]
  simp only [String.append_assoc]
  rfl

theorem nested_members {members : List (MemberHead × TypeExpr)}
    (h : ∀ m ∈ members, Nested m.1.render.toList ∧ Nests m.2) :
    Nested (renderMembers members ++ "\n").toList := by
  induction members with
  | nil => exact nested_of_bare (by decide)
  | cons m rest ih =>
    obtain ⟨⟨hhead, htype⟩, hrest⟩ := List.forall_mem_cons.1 h
    have hlater := ih hrest
    rw [String.toList_append] at hlater
    rw [renderMembers_cons]
    simp only [String.append_assoc, String.toList_append]
    exact hhead.append (htype.append ((nested_of_bare (by decide)).append hlater))

theorem nests_object {members : List (MemberHead × TypeExpr)}
    (h : ∀ m ∈ members, Nested m.1.render.toList ∧ Nests m.2) : Nests (object members) := by
  rw [Nests, render_object_eq]
  exact nested_braces (nested_members h)

/-- Types in whose text each operator joins what it joins in the type: what stands before the
brackets of a list shows no operator, and no operand of an intersection shows alternatives. Comments
end themselves, and names have a property. -/
inductive Clear (P : String → Prop) : TypeExpr → Prop
  | builtin (b : Builtin) : Clear P (builtin b)
  | name {n : String} : P n → Clear P (name n)
  | literals (values : List Value) : Clear P (literals values)
  | valuesOf {constant : String} : P constant → Clear P (valuesOf constant)
  | openRecord : Clear P openRecord
  | emptyObject : Clear P emptyObject
  | paren {t : TypeExpr} : Clear P t → Clear P (paren t)
  | array {t : TypeExpr} : Clear P t → ¬ TopLevel '|' t.render → ¬ TopLevel '&' t.render →
      Clear P (array t)
  | join {op : Operator} {ts : List TypeExpr} : ts ≠ [] → (∀ t ∈ ts, Clear P t) →
      (op = .and → ∀ t ∈ ts, ¬ TopLevel '|' t.render) → Clear P (join op ts)
  | object {ms : List (MemberHead × TypeExpr)} : (∀ m ∈ ms, ∀ c ∈ m.1.comment, c.Guarded) →
      (∀ m ∈ ms, Clear P m.2) → Clear P (object ms)
  | record {t : TypeExpr} : Clear P t → Clear P (record t)
  | nullable {t : TypeExpr} : Clear P t → Clear P (nullable t)

/-- The text of such a type ends what it begins. -/
theorem Clear.nests {P : String → Prop} (hP : ∀ n, P n → Name.Plain n) {t : TypeExpr}
    (h : Clear P t) : Nests t := by
  induction h with
  | builtin b => exact nests_builtin b
  | name hn => exact (hP _ hn).nested
  | literals values => exact nests_literals values
  | valuesOf hn => exact nests_valuesOf (hP _ hn)
  | openRecord => exact nests_openRecord
  | emptyObject => exact nests_emptyObject
  | paren _ ih => exact nests_paren ih
  | array _ _ _ ih => exact nests_array ih
  | join _ _ _ ih => exact nests_join _ ih
  | object hcomments _ ih =>
    exact nests_object fun m hm => ⟨MemberHead.nested_render (hcomments m hm), ih m hm⟩
  | record _ ih => exact nests_record ih
  | nullable _ ih => exact nests_nullable ih

end TypeExpr

namespace Resolve
open Text

/-- A type beside an operator shows none of the operators that it is guarded against. -/
theorem not_topLevel_guarded {operators : List Char} {t : TypeExpr} (h : t.Nests) {c : Char}
    (hc : c ∈ operators) : ¬ TopLevel c (guarded operators t).render := by
  unfold guarded
  split
  · rw [TypeExpr.render_paren]
    exact not_topLevel_paren h c
  · rename_i hfree
    intro htop
    refine hfree (List.any_eq_true.2 ⟨c, hc, ?_⟩)
    rw [TypeExpr.hasChar, Text.hasChar, List.contains_eq_mem, decide_eq_true_eq]
    exact htop.mem

end Resolve

/-! ## Types of schemas -/

section

variable {P : String → Prop}

/-- A type whose text is clear; one that is a reference is a name. -/
structure Resolved.Clear (P : String → Prop) (r : Resolved) : Prop where
  type : r.type.Clear P
  named : r.isRef = true → ∃ n, r.type = .name n ∧ P n

namespace Resolved.Clear

variable {r : Resolved}

theorem of_type (htype : r.type.Clear P) (href : r.isRef = false) : r.Clear P where
  type := htype
  named h := by
    rw [href] at h
    cases h

theorem of_name {n : String} (hn : P n) (htype : r.type = .name n) : r.Clear P where
  type := by
    rw [htype]
    exact .name hn
  named _ := ⟨n, htype, hn⟩

theorem ofSchema (h : r.Clear P) (raw : Members) : (r.ofSchema raw).Clear P := by
  refine of_type ?_ rfl
  unfold Resolved.ofSchema
  split
  · unfold Resolved.withNull
    split
    · exact .nullable h.type
    · exact h.type
  · exact h.type

theorem finish (h : r.Clear P) (s : Schema) : (Resolve.finish s r).Clear P := by
  cases s with
  | reference => exact h
  | _ => exact h.ofSchema _

theorem hoist (h : r.Clear P) {name : Option String} (hname : ∀ n ∈ name, P n)
    (combined : Bool) : (Resolve.hoist name combined r).Clear P := by
  unfold Resolve.hoist
  cases name with
  | none => exact h
  | some n =>
    dsimp only
    split
    · exact of_name (hname n rfl) rfl
    · split
      · exact of_name (hname n rfl) rfl
      · exact h

theorem operand (h : r.Clear P) (keyword : Keyword) : (Resolve.operand keyword r).Clear P := by
  unfold Resolve.operand Resolve.guarded
  split_ifs
  · exact .paren h.type
  · exact h.type
  · exact h.type

theorem nests (h : r.Clear Name.Plain) : r.type.Nests := h.type.nests fun _ hn => hn

end Resolved.Clear

namespace Resolve
open Text

/-- No part of an intersection shows alternatives. -/
theorem not_topLevel_operand (hP : ∀ n, P n → Name.Plain n) {r : Resolved} (h : r.Clear P) :
    ¬ TopLevel '|' (operand .allOf r).render := by
  unfold operand
  split
  · exact not_topLevel_guarded (h.type.nests hP) (List.mem_singleton_self _)
  · rename_i href
    obtain ⟨n, htype, hn⟩ := h.named (by simpa using href)
    intro htop
    rw [htype] at htop
    exact (hP n hn '|' htop.mem).2.1 rfl

/-- The members of an object type have comments that end themselves, and the types of its
properties. -/
theorem member_of_membersOf {owner : Members} {properties : List (Atom × Schema)}
    {types : List Resolved} {members : List (MemberHead × TypeExpr)}
    (h : membersOf owner properties types = .ok members) :
    ∀ m ∈ members, (∀ c ∈ m.1.comment, c.Guarded) ∧ ∃ r ∈ types, m.2 = r.type := by
  induction properties generalizing types members with
  | nil =>
    obtain rfl : [] = members := by simpa [membersOf] using h
    simp
  | cons p properties ih =>
    cases types with
    | nil =>
      obtain rfl : [] = members := by simpa [membersOf] using h
      simp
    | cons r types =>
      obtain ⟨key, s⟩ := p
      rw [membersOf] at h
      obtain ⟨key, -, h⟩ := Except.bind_eq_ok.1 h
      obtain ⟨rest, hrest, h⟩ := Except.bind_eq_ok.1 h
      obtain rfl := by simpa [pure, Except.pure] using h
      refine List.forall_mem_cons.2 ⟨⟨fun c hc => Comment.guarded_make? hc, r,
        List.mem_cons_self .., rfl⟩, fun m hm => ?_⟩
      obtain ⟨hcomment, q, hq, htype⟩ := ih hrest m hm
      exact ⟨hcomment, q, List.mem_cons_of_mem _ hq, htype⟩

/-- The members of an object type end what they begin. -/
theorem nested_membersOf {owner : Members} {properties : List (Atom × Schema)}
    {types : List Resolved} {members : List (MemberHead × TypeExpr)}
    (h : membersOf owner properties types = .ok members)
    (htypes : ∀ r ∈ types, r.Clear Name.Plain) :
    ∀ m ∈ members, Nested m.1.render.toList ∧ m.2.Nests := by
  intro m hm
  obtain ⟨hcomment, r, hr, htype⟩ := member_of_membersOf h m hm
  exact ⟨MemberHead.nested_render hcomment, htype ▸ (htypes r hr).nests⟩

theorem clear_members {properties : List (Atom × Schema)}
    {names : List (Option String)} {types : List Resolved}
    (h : MemberTypes (fun _ name r => (∀ n ∈ name, P n) → r.Clear P) properties names types)
    (hnames : ∀ name ∈ names, ∀ n ∈ name, P n) : ∀ r ∈ types, r.Clear P := by
  induction h with
  | nil => simp
  | cons hr _ ih =>
    obtain ⟨hname, hnames⟩ := List.forall_mem_cons.1 hnames
    have hgiven := made_givenName hname
    exact List.forall_mem_cons.2 ⟨((hr hgiven).finish _).hoist hgiven false, ih hnames⟩

variable (laws : Name.Laws P) (hP : ∀ n, P n → Name.Plain n)
include laws

theorem clear_parts {name : Option String} {count : Nat} {schemas : List Schema}
    {types : List Resolved}
    (h : PartTypes (fun _ name r => (∀ n ∈ name, P n) → r.Clear P) name count schemas types)
    (hname : ∀ n ∈ name, P n) : ∀ r ∈ types, r.Clear P := by
  induction h with
  | nil => simp
  | @cons count _ _ _ _ hr _ ih =>
    have hnumbered := made_numbered laws hname count
    exact List.forall_mem_cons.2 ⟨((hr hnumbered).finish _).hoist hnumbered true, ih⟩

include hP

theorem clear_combine {types : List Resolved} (h : ∀ r ∈ types, r.Clear P) (keyword : Keyword)
    (name : Option String) : (combine keyword name types).Clear P := by
  cases types with
  | nil => exact .of_type (.builtin _) rfl
  | cons r types =>
    have hjoined : (combine.joined keyword (r :: types)).Clear P := by
      refine .of_type (.join (by simp) ?_ fun hand => ?_) rfl
      · exact List.forall_mem_map.2 fun q hq => (h q hq).operand keyword
      · obtain rfl : keyword = .allOf := by
          cases keyword
          · rfl
          · cases hand
          · cases hand
        exact List.forall_mem_map.2 fun q hq => not_topLevel_operand hP (h q hq)
    cases name with
    | none => exact hjoined
    | some n =>
      rw [combine]
      · split
        · exact .of_type (.valuesOf (laws.pascal _)) rfl
        · exact hjoined
      · simp

/-- The text of a schema's type is clear, whatever the keys, texts and values of the schema are,
where names and suffixes have a property of plain names that what is made of them has too. -/
theorem clearLaws {ctx : Context} (hctx : ctx.SuffixesHave P) :
    ShapeLaws ctx fun _ name r => (∀ n ∈ name, P n) → r.Clear P where
  reference := by
    intro raw ref name r h _
    obtain ⟨info, raw, deeper, hinfo, -, rfl⟩ := reference_ok h
    exact .of_name (made_info laws hctx hinfo) rfl
  primitive := by
    intro raw name _
    unfold primitive
    dsimp only
    split_ifs
    all_goals exact .of_type (.builtin _) rfl
  enum := by
    intro raw values name _
    exact .of_type (.literals values) rfl
  bare := by
    intro raw name _
    refine .of_type ?_ rfl
    unfold bare
    dsimp only
    split
    · exact .emptyObject
    · exact .builtin _
  openRecord := by
    intro raw name _
    exact .of_type .openRecord rfl
  anyArray := by
    intro raw name _
    exact .of_type (.array (.builtin _) (by decide) (by decide)) rfl
  array := by
    intro raw items name r hr hname
    have hitem := made_itemName laws hname
    have hslot := ((hr hitem).finish items).hoist hitem false
    have hnests := hslot.type.nests hP
    refine .of_type (.array ?_ (not_topLevel_guarded hnests (by decide))
      (not_topLevel_guarded hnests (by decide))) rfl
    unfold guarded
    split
    · exact .paren hslot.type
    · exact hslot.type
  record := by
    intro raw values name r hr hname
    exact .of_type (.record ((hr hname).finish values).type) rfl
  object := by
    intro raw properties name names types r hnames htypes h _
    obtain ⟨members, hmembers, h⟩ := Except.bind_eq_ok.1 h
    obtain rfl := by simpa [pure, Except.pure] using h
    have hall := clear_members htypes (made_childNames laws hnames)
    refine .of_type (.object (fun m hm => (member_of_membersOf hmembers m hm).1) fun m hm => ?_) rfl
    obtain ⟨-, q, hq, htype⟩ := member_of_membersOf hmembers m hm
    exact htype ▸ (hall q hq).type
  composition := by
    intro raw keyword schemas name types h hname
    exact clear_combine laws hP (clear_parts laws h (made_partName laws name keyword)) keyword name

end Resolve
end

/-- The text of a schema's type is clear where names and suffixes are plain. -/
theorem Resolve.clear_shape {ctx : Context} (hctx : ctx.SuffixesHave Name.Plain) (s : Schema)
    (name : Option String) (r : Resolved) (h : (shape ctx s name).outcome = .ok r)
    (hname : ∀ n ∈ name, Name.Plain n) : r.Clear Name.Plain :=
  (clearLaws Name.plain_laws (fun _ hn => hn) hctx).shape s name r h hname

end ApiTypes

import ApiTypes.Proofs.NameChars
import ApiTypes.Proofs.Written

/-!
# What the text of a type tells about `null`

* `Resolve.WithoutBar` : names in which no alternatives can be read;
* `Schema.isEnumFree` : schemas without lists of values, also where references lead;
* `TypeExpr.ShowsNull` : types whose text is `null` or ends with it;
* `Resolved.ToldByText` : types that allow `null` where their text shows it;
* `Resolve.toldLaws` : the types of schemas without enums are such.
-/

namespace ApiTypes

/-! ## Texts that end in `null` -/

namespace Text

/-- Where the end of two joined texts reads `| null`, either the second ends so, or it is `null`
after a bar. -/
theorem bar_null_suffix {a b : List Char} {mark : Char}
    (h : ['|', ' ', 'n', 'u', 'l', 'l'] <:+ a ++ ([' ', mark, ' '] ++ b)) :
    ['|', ' ', 'n', 'u', 'l', 'l'] <:+ b ∨ (mark = '|' ∧ b = ['n', 'u', 'l', 'l']) := by
  rw [← List.reverse_prefix] at h
  rw [← List.reverse_prefix, ← @List.reverse_inj _ b]
  simp only [List.reverse_append, List.reverse_cons, List.reverse_nil, List.nil_append,
    List.cons_append, List.append_assoc] at h ⊢
  -- read from the end, the texts can be compared character by character
  generalize b.reverse = r at h ⊢
  rcases r with - | ⟨c₁, - | ⟨c₂, - | ⟨c₃, - | ⟨c₄, - | ⟨c₅, - | ⟨c₆, rest⟩⟩⟩⟩⟩⟩ <;>
    simp only [List.nil_append, List.cons_append, List.cons_prefix_cons, List.nil_prefix,
      Char.reduceEq, reduceCtorEq, List.cons.injEq, and_true, and_false, false_and, true_and,
      or_false] at h ⊢
  · obtain ⟨rfl, rfl, rfl, rfl, rfl⟩ := h
    simp
  · exact h

theorem endsWith_iff {s e : String} : endsWith s e = true ↔ e.toList <:+ s.toList := by
  rw [endsWith, List.isSuffixOf_iff_suffix]

theorem join_cons_cons (sep a b : String) (rest : List String) :
    join sep (a :: b :: rest) = a ++ (sep ++ join sep (b :: rest)) := by
  simp [join, String.intercalate_cons_cons, String.append_assoc]

theorem join_singleton (sep a : String) : join sep [a] = a := by
  simp [join]

end Text

namespace Resolve

/-- A name without a bar, which would read as alternatives. -/
def WithoutBar (n : String) : Prop := Text.Over (· ≠ '|') n

instance (n : String) : Decidable (WithoutBar n) := List.decidableBAll (· ≠ '|') n.toList

end Resolve

namespace TypeExpr

/-! ## Types that show `null` -/

theorem render_name (n : String) : (name n).render = n := rfl

theorem render_array (t : TypeExpr) : (array t).render = t.render ++ "[]" := rfl

theorem render_paren (t : TypeExpr) : (paren t).render = "(" ++ t.render ++ ")" := rfl

theorem render_record (t : TypeExpr) :
    (record t).render = "\x7b[key: string]: " ++ t.render ++ "\x7d" := rfl

theorem render_object (members : List (MemberHead × TypeExpr)) :
    (object members).render = "\x7b" ++ renderMembers members ++ "\n\x7d" := rfl

theorem render_valuesOf (constant : String) :
    (valuesOf constant).render = "typeof " ++ constant ++ "[keyof typeof " ++ constant ++ "]" := rfl

theorem renderAll_eq_map (ts : List TypeExpr) : renderAll ts = ts.map render := by
  induction ts with
  | nil => rfl
  | cons t rest ih => exact congrArg (t.render :: ·) ih

theorem render_join (op : Operator) (ts : List TypeExpr) :
    (join op ts).render = Text.join op.text (ts.map render) := by
  rw [← renderAll_eq_map]
  rfl

/-- The text of a type is `null` or shows it as the last alternative. -/
def ShowsNull (t : TypeExpr) : Prop := t.render = "null" ∨ t.endsInNull = true

theorem ShowsNull.getLast {t : TypeExpr} (h : ShowsNull t) :
    t.render.toList.getLast? = some 'l' := by
  rcases h with h | h
  · rw [h]
    decide
  · obtain ⟨before, hbefore⟩ := Text.endsWith_iff.1 h
    rw [← hbefore, List.getLast?_append]
    rfl

/-- What ends in another letter shows no `null`. -/
theorem not_showsNull_of_getLast {t : TypeExpr} {c : Char}
    (h : t.render.toList.getLast? = some c) (hc : c ≠ 'l') : ¬ ShowsNull t := by
  intro hshows
  rw [hshows.getLast, Option.some.injEq] at h
  exact hc h.symm

theorem not_showsNull_paren (t : TypeExpr) : ¬ ShowsNull (paren t) :=
  not_showsNull_of_getLast (c := ')')
    (by rw [render_paren, String.toList_append, List.getLast?_append]; rfl) (by decide)

theorem not_showsNull_array (t : TypeExpr) : ¬ ShowsNull (array t) :=
  not_showsNull_of_getLast (c := ']')
    (by rw [render_array, String.toList_append, List.getLast?_append]; rfl) (by decide)

theorem not_showsNull_record (t : TypeExpr) : ¬ ShowsNull (record t) :=
  not_showsNull_of_getLast (c := '\x7d')
    (by rw [render_record, String.toList_append, List.getLast?_append]; rfl) (by decide)

theorem not_showsNull_object (members : List (MemberHead × TypeExpr)) :
    ¬ ShowsNull (object members) :=
  not_showsNull_of_getLast (c := '\x7d')
    (by rw [render_object, String.toList_append, List.getLast?_append]; rfl) (by decide)

theorem not_showsNull_openRecord : ¬ ShowsNull openRecord :=
  not_showsNull_of_getLast (c := '\x7d') (by decide) (by decide)

theorem not_showsNull_emptyObject : ¬ ShowsNull emptyObject :=
  not_showsNull_of_getLast (c := '\x7d') (by decide) (by decide)

theorem not_showsNull_valuesOf (constant : String) : ¬ ShowsNull (valuesOf constant) :=
  not_showsNull_of_getLast (c := ']')
    (by rw [render_valuesOf, String.toList_append, List.getLast?_append]; rfl) (by decide)

/-! ## Types that allow what they show -/

/-- A type that allows `null` where its text shows it. -/
def Told (t : TypeExpr) : Prop := ShowsNull t → AllowsNull t

theorem told_builtin (b : Builtin) : Told (builtin b) := by
  cases b
  case null => exact fun _ => .null
  case string => exact fun h => absurd h (not_showsNull_of_getLast (c := 'g') rfl (by decide))
  case number => exact fun h => absurd h (not_showsNull_of_getLast (c := 'r') rfl (by decide))
  case boolean => exact fun h => absurd h (not_showsNull_of_getLast (c := 'n') rfl (by decide))
  case blob => exact fun h => absurd h (not_showsNull_of_getLast (c := 'b') rfl (by decide))
  case unknown => exact fun h => absurd h (not_showsNull_of_getLast (c := 'n') rfl (by decide))
  case never => exact fun h => absurd h (not_showsNull_of_getLast (c := 'r') rfl (by decide))

/-- A name without a bar shows `null` only where it is written so. -/
theorem told_name {n : String} (hn : Resolve.WithoutBar n) : Told (name n) := by
  rintro (h | h)
  · obtain rfl : n = "null" := h
    exact .name
  · have hbar : '|' ∈ n.toList := (Text.endsWith_iff.1 h).subset (by decide)
    exact absurd rfl (hn '|' hbar)

theorem told_guarded (operators : List Char) {t : TypeExpr} (h : Told t) :
    Told (Resolve.guarded operators t) := by
  unfold Resolve.guarded
  split
  · exact fun hshows => absurd hshows (not_showsNull_paren t)
  · exact h

theorem render_join_single (op : Operator) (t : TypeExpr) : (join op [t]).render = t.render := by
  rw [render_join, List.map_singleton, Text.join_singleton]

/-- Where joined types show `null`, those but the first do; if these are `null`, the types are
alternatives. -/
theorem showsNull_join_cons {op : Operator} {t u : TypeExpr} {rest : List TypeExpr}
    (h : ShowsNull (join op (t :: u :: rest))) :
    ShowsNull (join op (u :: rest)) ∧ ((join op (u :: rest)).render = "null" → op = .or) := by
  obtain ⟨mark, hmark, hor⟩ :
      ∃ mark, op.text.toList = [' ', mark, ' '] ∧ (mark = '|' → op = .or) := by
    cases op
    · exact ⟨'&', rfl, by decide⟩
    · exact ⟨'|', rfl, fun _ => rfl⟩
  have htext : (join op (t :: u :: rest)).render.toList =
      t.render.toList ++ ([' ', mark, ' '] ++ (join op (u :: rest)).render.toList) := by
    rw [render_join, render_join, List.map_cons, List.map_cons, Text.join_cons_cons,
      String.toList_append, String.toList_append, hmark]
  rcases h with h | h
  · have hmem : ' ' ∈ (join op (t :: u :: rest)).render.toList := by simp [htext]
    rw [h] at hmem
    exact absurd hmem (by decide)
  · have hsuffix := Text.endsWith_iff.1 h
    rw [htext] at hsuffix
    rcases Text.bar_null_suffix hsuffix with hsuffix | ⟨hbar, hnull⟩
    · have hends : (join op (u :: rest)).endsInNull = true := Text.endsWith_iff.2 hsuffix
      refine ⟨.inr hends, fun hnull => ?_⟩
      rw [endsInNull, hnull] at hends
      exact absurd hends (by decide)
    · exact ⟨.inl (String.toList_inj.1 hnull), fun _ => hor hbar⟩

/-- Types that are joined show `null` by one that does so, or that is `null` among alternatives. -/
theorem exists_of_showsNull_join {op : Operator} {t : TypeExpr} {ts : List TypeExpr} (hts : ts ≠ [])
    (h : ShowsNull (join op (t :: ts))) :
    ∃ u ∈ ts, u.endsInNull = true ∨ (op = .or ∧ u.render = "null") := by
  induction ts generalizing t with
  | nil => exact absurd rfl hts
  | cons u rest ih =>
    obtain ⟨hrest, hor⟩ := showsNull_join_cons h
    cases rest with
    | nil =>
      refine ⟨u, List.mem_singleton.2 rfl, ?_⟩
      rw [ShowsNull, endsInNull, render_join_single] at hrest
      rw [render_join_single] at hor
      exact hrest.symm.imp_right fun hnull => ⟨hor hnull, hnull⟩
    | cons v rest =>
      obtain ⟨w, hw, hshows⟩ := ih (by simp) hrest
      exact ⟨w, List.mem_cons_of_mem _ hw, hshows⟩

theorem told_join {op : Operator} {ts : List TypeExpr} (h : ∀ t ∈ ts, Told t)
    (hand : op = .and → ∀ t ∈ ts, t.endsInNull = false) : Told (join op ts) := by
  intro hshows
  match ts with
  | [] =>
    have hlast := hshows.getLast
    simp [render_join, Text.join] at hlast
  | [t] =>
    rw [ShowsNull, endsInNull, render_join_single] at hshows
    exact .single op (h t (List.mem_singleton.2 rfl) hshows)
  | t :: u :: rest =>
    obtain ⟨w, hw, hnull⟩ := exists_of_showsNull_join (by simp) hshows
    have hmem : w ∈ t :: u :: rest := List.mem_cons_of_mem _ hw
    cases op with
    | or => exact .alternative hmem (h w hmem (hnull.symm.imp_left And.right))
    | and =>
      rcases hnull with hends | ⟨hop, -⟩
      · rw [hand rfl w hmem] at hends
        cases hends
      · cases hop

/-- What holds no bar does not end in `null` after one. -/
theorem endsInNull_eq_false {t : TypeExpr} (h : t.hasChar '|' = false) : t.endsInNull = false := by
  by_contra hends
  have hends : t.endsInNull = true := by simpa using hends
  have hbar : '|' ∈ t.render.toList := (Text.endsWith_iff.1 hends).subset (by decide)
  rw [hasChar, Text.hasChar, List.contains_eq_mem, decide_eq_false_iff_not] at h
  exact h hbar

end TypeExpr

/-! ## Schemas without enums -/

mutual

/-- Whether a schema has no lists of values, also where its references lead. -/
def Schema.isEnumFree (ctx : Context) : Schema → Bool
  | .reference _ ref =>
    (Reference.follow ctx ref).toOption.all fun target => (Schema.enumOf? target.1).isNone
  | .composition _ _ parts => allEnumFree ctx parts
  | .array _ (some items) => isEnumFree ctx items
  | .object _ properties => membersEnumFree ctx properties
  | .record _ values => isEnumFree ctx values
  | .enum _ _ => false
  | .array _ none | .primitive _ | .openRecord _ | .bare _ | .malformed _ => true

/-- Whether some schemas have no lists of values. -/
def Schema.allEnumFree (ctx : Context) : List Schema → Bool
  | [] => true
  | s :: rest => s.isEnumFree ctx && allEnumFree ctx rest

/-- Whether the schemas of members have no lists of values. -/
def Schema.membersEnumFree (ctx : Context) : List (Atom × Schema) → Bool
  | [] => true
  | (_, s) :: rest => s.isEnumFree ctx && membersEnumFree ctx rest

end

namespace Resolve

theorem withoutBar_laws : Name.Laws WithoutBar := by
  refine .ofOver ?_
  rintro c hc rfl
  revert hc
  decide

end Resolve

/-! ## Types of schemas without enums -/

/-- A type that allows `null` where its text shows it; one that is a reference is a name without a
bar. -/
structure Resolved.ToldByText (r : Resolved) : Prop where
  told : r.type.Told
  named : r.isRef = true → ∃ n, r.type = .name n ∧ Resolve.WithoutBar n

namespace Resolved.ToldByText

variable {r : Resolved}

/-- No reference, and a type that allows what it shows. -/
theorem of_told (htold : r.type.Told) (href : r.isRef = false) : r.ToldByText where
  told := htold
  named h := by
    rw [href] at h
    cases h

theorem ofSchema (h : r.ToldByText) (raw : Members) : (r.ofSchema raw).ToldByText := by
  refine of_told ?_ rfl
  unfold Resolved.ofSchema
  split
  · unfold Resolved.withNull
    split
    · exact fun _ => .nullable _
    · exact h.told
  · exact h.told

theorem finish (h : r.ToldByText) (s : Schema) : (Resolve.finish s r).ToldByText := by
  cases s with
  | reference => exact h
  | _ => exact h.ofSchema _

theorem of_name {n : String} (hn : Resolve.WithoutBar n) (htype : r.type = .name n) :
    r.ToldByText where
  told := by
    rw [htype]
    exact TypeExpr.told_name hn
  named _ := ⟨n, htype, hn⟩

theorem hoist (h : r.ToldByText) {name : Option String} (hname : ∀ n ∈ name, Resolve.WithoutBar n)
    (combined : Bool) : (Resolve.hoist name combined r).ToldByText := by
  unfold Resolve.hoist
  cases name with
  | none => exact h
  | some n =>
    dsimp only
    split
    · exact of_name (hname n rfl) rfl
    · split
      · exact of_name (hname n rfl) rfl
      · exact h

theorem operand (h : r.ToldByText) (keyword : Keyword) : (Resolve.operand keyword r).Told := by
  unfold Resolve.operand
  split
  · exact TypeExpr.told_guarded _ h.told
  · exact h.told

/-- A part of an intersection shows no `null`. -/
theorem endsInNull_operand (h : r.ToldByText) : (Resolve.operand .allOf r).endsInNull = false := by
  unfold Resolve.operand
  split
  · unfold Resolve.guarded
    split
    · have hparen := TypeExpr.not_showsNull_paren r.type
      simpa using fun hends => hparen (.inr hends)
    · rename_i hbar
      exact TypeExpr.endsInNull_eq_false (by simpa using hbar)
  · rename_i href
    obtain ⟨n, htype, hn⟩ := h.named (by simpa using href)
    rw [htype]
    refine TypeExpr.endsInNull_eq_false ?_
    have hbar : '|' ∉ n.toList := fun hmem => hn _ hmem rfl
    simpa [TypeExpr.hasChar, Text.hasChar, TypeExpr.render_name] using hbar

end Resolved.ToldByText

namespace Resolve

theorem told_parts {ctx : Context} {name : Option String} {count : Nat} {schemas : List Schema}
    {types : List Resolved}
    (h : PartTypes (fun s name r => s.isEnumFree ctx → (∀ n ∈ name, WithoutBar n) → r.ToldByText)
      name count schemas types)
    (hfree : Schema.allEnumFree ctx schemas) (hname : ∀ n ∈ name, WithoutBar n) :
    ∀ r ∈ types, r.ToldByText := by
  induction h with
  | nil => simp
  | @cons count _ _ _ _ hr _ ih =>
    rw [Schema.allEnumFree, Bool.and_eq_true] at hfree
    have hnumbered := made_numbered withoutBar_laws hname count
    exact List.forall_mem_cons.2
      ⟨((hr hfree.1 hnumbered).finish _).hoist hnumbered true, ih hfree.2⟩

theorem told_combine {types : List Resolved} (h : ∀ r ∈ types, r.ToldByText) (keyword : Keyword)
    (name : Option String) : (combine keyword name types).ToldByText := by
  have hjoined : (TypeExpr.join keyword.operator (types.map (operand keyword))).Told := by
    refine TypeExpr.told_join ?_ ?_
    · exact List.forall_mem_map.2 fun r hr => (h r hr).operand keyword
    · intro hand
      obtain rfl : keyword = .allOf := by
        cases keyword
        · rfl
        · cases hand
        · cases hand
      exact List.forall_mem_map.2 fun r hr => (h r hr).endsInNull_operand
  unfold combine
  split
  · exact .of_told (TypeExpr.told_builtin _) rfl
  · split
    · split
      · exact .of_told (fun hshows => absurd hshows (TypeExpr.not_showsNull_valuesOf _)) rfl
      · exact .of_told hjoined rfl
    · exact .of_told hjoined rfl

/-- Schemas without enums have types that tell by their texts whether they allow `null`, where
neither names nor suffixes hold a bar. -/
theorem toldLaws {ctx : Context} (hctx : ctx.SuffixesHave WithoutBar) :
    ShapeLaws ctx fun s name r =>
      s.isEnumFree ctx → (∀ n ∈ name, WithoutBar n) → r.ToldByText where
  reference := by
    intro raw ref name r h _ _
    obtain ⟨info, raw, deeper, hinfo, -, rfl⟩ := reference_ok h
    exact .of_name (made_info withoutBar_laws hctx hinfo) rfl
  primitive := by
    intro raw name _ _
    unfold primitive
    dsimp only
    split_ifs
    all_goals exact .of_told (TypeExpr.told_builtin _) rfl
  enum := by
    intro raw values name hfree
    rw [Schema.isEnumFree] at hfree
    cases hfree
  bare := by
    intro raw name _ _
    refine .of_told ?_ rfl
    unfold bare
    dsimp only
    split
    · exact fun hshows => absurd hshows TypeExpr.not_showsNull_emptyObject
    · exact TypeExpr.told_builtin _
  openRecord := by
    intro raw name _ _
    exact .of_told (fun hshows => absurd hshows TypeExpr.not_showsNull_openRecord) rfl
  anyArray := by
    intro raw name _ _
    exact .of_told (fun hshows => absurd hshows (TypeExpr.not_showsNull_array _)) rfl
  array := by
    intro raw items name r _ _ _
    exact .of_told (fun hshows => absurd hshows (TypeExpr.not_showsNull_array _)) rfl
  record := by
    intro raw values name r _ _ _
    exact .of_told (fun hshows => absurd hshows (TypeExpr.not_showsNull_record _)) rfl
  object := by
    intro raw properties name names types r _ _ h _ _
    obtain ⟨members, -, h⟩ := Except.bind_eq_ok.1 h
    obtain rfl := by simpa [pure, Except.pure] using h
    exact .of_told (fun hshows => absurd hshows (TypeExpr.not_showsNull_object _)) rfl
  composition := by
    intro raw keyword schemas name types h hfree _
    rw [Schema.isEnumFree] at hfree
    exact told_combine (told_parts h hfree (made_partName withoutBar_laws name keyword))
      keyword name

end Resolve
end ApiTypes

import ApiTypes.Definition
import ApiTypes.Proofs.Precedence

/-!
# Which types are written as one object

* `Text.closesAtEnd_append` : the scan of a text passes what is nested in it;
* `Text.isObjectLiteral_braces`, `Text.isObjectLiteral_append` : a nested text in one pair of braces
  is one object, and one with more after it is none;
* `Resolve.object_literals` : the schemas whose types are declared as interfaces, and those whose
  types never are.
-/

namespace ApiTypes

namespace Text

/-! ## The scan of nested texts -/

theorem closesAtEnd_quoted (depth : Nat) (s rest : List Char) :
    closesAtEnd (.quoted depth) (escape s ++ '\'' :: rest) = closesAtEnd (.code depth) rest := by
  induction s with
  | nil => simp [escape, closesAtEnd]
  | cons c s ih =>
    by_cases hmark : c = '\\' ∨ c = '\''
    · simpa [escape, hmark, closesAtEnd] using ih
    · have hbackslash : c ≠ '\\' := fun h => hmark (.inl h)
      have hquote : c ≠ '\'' := fun h => hmark (.inr h)
      simpa [escape, hbackslash, hquote, closesAtEnd] using ih

theorem closesAtEnd_comment (depth : Nat) {s : List Char} (hs : NoEnd s) (rest : List Char) :
    closesAtEnd (.comment depth) (s ++ '*' :: '/' :: rest) = closesAtEnd (.code depth) rest := by
  induction s with
  | nil => simp [closesAtEnd]
  | cons c s ih =>
    rw [List.cons_append, closesAtEnd.eq_8 _ _ _ (NoEnd.not_end hs)]
    exact ih (List.IsChain.tail hs)

/-- Characters that are no braces and begin nothing are passed. -/
theorem closesAtEnd_other (depth : Nat) {c : Char} (hc : c ∉ ['\'', '/', '{', '}'])
    (rest : List Char) :
    closesAtEnd (.code depth) (c :: rest) = closesAtEnd (.code depth) rest := by
  simp only [List.mem_cons, List.not_mem_nil, or_false, not_or] at hc
  obtain ⟨hquote, hslash, hopening, hclosing⟩ := hc
  rw [closesAtEnd.eq_10 _ _ _ fun _ h _ => hslash h]
  simp [hquote, hopening, hclosing]

theorem closesAtEnd_opening (depth : Nat) (rest : List Char) :
    closesAtEnd (.code depth) ('{' :: rest) = closesAtEnd (.code (depth + 1)) rest := by
  simp [closesAtEnd]

/-- Within braces the scan passes what is nested and does not stand at the end. -/
theorem closesAtEnd_append {s : List Char} (h : Nested s) {depth : Nat} (hdepth : 0 < depth)
    {rest : List Char} (hrest : rest ≠ []) :
    closesAtEnd (.code depth) (s ++ rest) = closesAtEnd (.code depth) rest := by
  -- what stands in braces is scanned one level deeper, before the brace that closes them
  induction h generalizing depth rest with
  | nil => rfl
  | @bare c s hc _ ih =>
    have hother : c ∉ ['\'', '/', '{', '}'] := by
      rintro hmem
      revert hc
      simp only [List.mem_cons, List.not_mem_nil, or_false] at hmem
      rcases hmem with rfl | rfl | rfl | rfl <;> decide
    rw [List.cons_append, closesAtEnd_other depth hother, ih hdepth hrest]
  | @quoted text s _ ih =>
    simp [closesAtEnd, closesAtEnd_quoted, ih hdepth hrest]
  | @comment text s hs _ ih =>
    simp [closesAtEnd, closesAtEnd_comment depth hs, ih hdepth hrest]
  | @group b inner s _ _ ihinner ih =>
    have hinner : ∀ {d}, 0 < d → closesAtEnd (.code d) (inner ++ b.closing :: (s ++ rest)) =
        closesAtEnd (.code d) (b.closing :: (s ++ rest)) := fun hd => ihinner hd (by simp)
    have htext : b.opening :: (inner ++ b.closing :: s) ++ rest =
        b.opening :: (inner ++ b.closing :: (s ++ rest)) := by simp
    rw [htext, ← ih hdepth hrest]
    cases b with
    | brace =>
      rw [Bracket.opening, closesAtEnd_opening, hinner (Nat.succ_pos depth)]
      simp [closesAtEnd, Bracket.closing, Nat.ne_of_gt hdepth]
    | square =>
      rw [Bracket.opening, closesAtEnd_other depth (by decide), hinner hdepth, Bracket.closing,
        closesAtEnd_other depth (by decide)]
    | round =>
      rw [Bracket.opening, closesAtEnd_other depth (by decide), hinner hdepth, Bracket.closing,
        closesAtEnd_other depth (by decide)]

/-- The braces that a text begins with close at its end just when nothing stands after them. -/
theorem closesAtEnd_braces {inner : List Char} (h : Nested inner) (rest : List Char) :
    closesAtEnd (.code 0) ('{' :: (inner ++ '}' :: rest)) = decide (rest = []) := by
  rw [closesAtEnd_opening, closesAtEnd_append h (Nat.succ_pos 0) (by simp)]
  by_cases hrest : rest = [] <;> simp [closesAtEnd, hrest]

/-- What stands in one pair of braces is one object. -/
theorem isObjectLiteral_braces {inner : String} (h : Nested inner.toList) :
    isObjectLiteral ("\x7b" ++ inner ++ "\x7d") = true := by
  have htext : ("\x7b" ++ inner ++ "\x7d").toList = '{' :: (inner.toList ++ '}' :: []) := by simp
  have hlast : ('{' :: (inner.toList ++ '}' :: [])).getLast? = some '}' := by
    rw [← List.cons_append, List.getLast?_append]
    rfl
  rw [isObjectLiteral, htext, hlast, closesAtEnd_braces h]
  rfl

theorem isObjectLiteral_of_head {s : String} (h : s.toList.head? ≠ some '{') :
    isObjectLiteral s = false := by
  simp [isObjectLiteral, h]

theorem isObjectLiteral_of_last {s : String} (h : s.toList.getLast? ≠ some '}') :
    isObjectLiteral s = false := by
  simp [isObjectLiteral, h]

/-- A nested text with more after it, which begins with no brace, is no one object. -/
theorem isObjectLiteral_append {a b : String} (ha : Nested a.toList) (hb : b ≠ "")
    (hhead : b.toList.head? ≠ some '{') : isObjectLiteral (a ++ b) = false := by
  have hrest : b.toList ≠ [] := fun h => hb (String.toList_inj.1 h)
  have hother : ∀ {c : Char} {rest : List Char}, a.toList = c :: rest → c ≠ '{' →
      isObjectLiteral (a ++ b) = false := by
    intro c rest htext hc
    refine isObjectLiteral_of_head ?_
    simpa [htext] using hc
  generalize htext : a.toList = text at ha
  cases ha with
  | nil =>
    refine isObjectLiteral_of_head ?_
    rwa [String.toList_append, htext, List.nil_append]
  | bare hc =>
    refine hother htext ?_
    rintro rfl
    revert hc
    decide
  | quoted => exact hother htext (by decide)
  | comment => exact hother htext (by decide)
  | @group bracket inner rest hinner =>
    cases bracket with
    | square => exact hother htext (by decide)
    | round => exact hother htext (by decide)
    | brace =>
      have hscan : closesAtEnd (.code 0) (a ++ b).toList = false := by
        have hjoined : (a ++ b).toList = '{' :: (inner ++ '}' :: (rest ++ b.toList)) := by
          simp [htext, Bracket.opening, Bracket.closing]
        rw [hjoined, closesAtEnd_braces hinner]
        simp [hrest]
      unfold isObjectLiteral
      dsimp only
      rw [hscan, Bool.and_false]

/-- Joined texts begin with what one of them begins with, or the separator. -/
theorem head?_join {c : Char} {sep : String} (hne : sep ≠ "") (hsep : sep.toList.head? ≠ some c)
    {parts : List String} (h : ∀ p ∈ parts, p.toList.head? ≠ some c) :
    (join sep parts).toList.head? ≠ some c := by
  match parts with
  | [] => simp [join]
  | [p] =>
    rw [join_singleton]
    exact h p (List.mem_singleton_self p)
  | p :: q :: rest =>
    have hp := h p (List.mem_cons_self ..)
    rw [join_cons_cons, String.toList_append, String.toList_append, List.head?_append,
      List.head?_append]
    cases hhead : p.toList.head? with
    | some d =>
      rw [hhead] at hp
      exact hp
    | none =>
      have hsome : ∃ d, sep.toList.head? = some d := by
        cases hchars : sep.toList with
        | nil => exact absurd (String.toList_inj.1 hchars) hne
        | cons d rest => exact ⟨d, rfl⟩
      obtain ⟨d, hd⟩ := hsome
      rw [hd] at hsep ⊢
      exact hsep

end Text

theorem Enum.head?_literal (v : Value) : (literal v).toList.head? ≠ some '\x7b' := by
  rcases literal_cases v with ⟨-, hnull⟩ | hword | hnumber | ⟨s, hquoted⟩
  · rw [hnull]
    decide
  · revert hword
    generalize literal v = word
    revert word
    decide
  · intro hhead
    have hchar := hnumber _ (List.mem_of_head? hhead)
    revert hchar
    decide
  · rw [hquoted, Text.quoted, String.toList_ofList]
    simp

/-! ## Objects -/

namespace TypeExpr
open Text

/-- Types that are joined are no one object. -/
theorem isObjectLiteral_join (op : Operator) {t u : TypeExpr} {rest : List TypeExpr}
    (h : Nests t) : isObjectLiteral (join op (t :: u :: rest)) = false := by
  rw [isObjectLiteral, render_join, List.map_cons, List.map_cons, join_cons_cons]
  refine isObjectLiteral_append h ?_ ?_
  · cases op <;> simp [Operator.text]
  · cases op <;> simp [Operator.text]

/-- Values that are listed are no one object. -/
theorem isObjectLiteral_literals (values : List Value) :
    isObjectLiteral (literals values) = false := by
  refine isObjectLiteral_of_head ?_
  rw [render_literals]
  split
  · decide
  · refine head?_join (by decide) (by decide) fun l hl => ?_
    obtain ⟨v, -, rfl⟩ := List.mem_map.1 (Enum.mem_distinct.1 hl)
    exact Enum.head?_literal v

theorem isObjectLiteral_array (t : TypeExpr) : isObjectLiteral (array t) = false := by
  refine isObjectLiteral_of_last ?_
  rw [render_array, String.toList_append, List.getLast?_append]
  exact (by decide : some ']' ≠ some '\x7d')

/-- What shows `null` is no one object. -/
theorem ShowsNull.isObjectLiteral {t : TypeExpr} (h : t.ShowsNull) : t.isObjectLiteral = false :=
  isObjectLiteral_of_last (by rw [h.getLast]; decide)

theorem isObjectLiteral_name {n : String} (hn : Name.Plain n) :
    isObjectLiteral (name n) = false := by
  refine isObjectLiteral_of_head fun hhead => ?_
  have hchar := (hn _ (List.mem_of_head? hhead)).1
  revert hchar
  decide

end TypeExpr

/-! ## Schemas -/

/-- Whether a schema describes an object by its properties or by the values of any keys. -/
def Schema.describesObject : Schema → Bool
  | .object .. | .record .. | .openRecord _ => true
  | _ => false

/-- Whether a schema is of a kind that no text of one object is written for: all but objects and
compositions of one part. -/
def Schema.isNoObject : Schema → Bool
  | .reference .. | .array .. | .enum .. | .primitive _ => true
  | .composition _ _ schemas => schemas.length ≠ 1
  | _ => false

def Model.isInterface : Model → Bool
  | .interface .. => true
  | _ => false

/-- A type whose declarations, under any name, are interfaces. -/
structure Resolved.Interface (r : Resolved) : Prop where
  literal : r.type.isObjectLiteral = true
  definition : ∀ n comment, Definition.model n comment r = .interface comment n r.type
  slot : ∀ n combined, Resolve.hoist (some n) combined r =
    Resolve.declared n (.interface (Comment.ofMembers? r.raw) n r.type) "object" r.isRef r

/-- A type for which no interface is declared under any name. -/
structure Resolved.NoInterface (r : Resolved) : Prop where
  literal : r.type.isObjectLiteral = false
  definition : ∀ n comment, (Definition.model n comment r).isInterface = false
  slot : ∀ name combined, ∀ d ∈ (Resolve.hoist name combined r).declarations,
    d ∈ r.declarations ∨ d.model.isInterface = false

theorem Resolved.NoInterface.of_type {r : Resolved} (h : r.type.isObjectLiteral = false) :
    r.NoInterface where
  literal := h
  definition n comment := by
    unfold Definition.model
    rw [h, Bool.and_false]
    split_ifs with _ _ hfalse
    · rfl
    · rfl
    · cases hfalse
    · rfl
  slot name combined d hd := by
    unfold Resolve.hoist at hd
    cases name with
    | none => exact .inl hd
    | some n =>
      dsimp only at hd
      rw [h, if_neg Bool.false_ne_true] at hd
      split_ifs at hd
      · exact (List.mem_append.1 hd).imp_right fun hd => by rw [List.mem_singleton.1 hd]; rfl
      · exact (List.mem_append.1 hd).imp_right fun hd => by rw [List.mem_singleton.1 hd]; rfl
      · exact .inl hd

/-- A type in one pair of braces, with something in them, is declared as an interface. -/
theorem Resolved.Interface.of_braces {r : Resolved} {inner : String} (henum : r.isEnum = false)
    (hkind : r.kind = "object") (htext : r.type.render = "\x7b" ++ inner ++ "\x7d")
    (hinner : Text.Nested inner.toList) (hne : inner ≠ "") : r.Interface := by
  have hliteral : r.type.isObjectLiteral = true := by
    rw [TypeExpr.isObjectLiteral, htext]
    exact Text.isObjectLiteral_braces hinner
  have hempty : r.type.render ≠ TypeExpr.emptyObject.render := by
    intro h
    have h : "\x7b" ++ inner ++ "\x7d" = "\x7b\x7d" := htext ▸ h
    have hchars : '\x7b' :: (inner.toList ++ ['\x7d']) = ['\x7b', '\x7d'] := by
      simpa using congrArg String.toList h
    exact hne (String.toList_inj.1 (by simpa using hchars))
  have hcompound : r.type.isCompound = true := by
    rw [TypeExpr.isCompound, htext]
    simp
  constructor
  · exact hliteral
  · intro n comment
    simp [Definition.model, henum, hempty, hkind, hliteral]
  · intro n combined
    simp [Resolve.hoist, henum, hkind, hcompound, hliteral]

namespace Resolve

theorem isEnum_finish (s : Schema) (q : Resolved) : (finish s q).isEnum = q.isEnum := by
  cases s with
  | reference => rfl
  | _ =>
    unfold finish Resolved.ofSchema Resolved.withNull
    dsimp only
    split_ifs <;> rfl

theorem kind_finish (s : Schema) (q : Resolved) : (finish s q).kind = q.kind := by
  cases s with
  | reference => rfl
  | _ =>
    unfold finish Resolved.ofSchema Resolved.withNull
    dsimp only
    split_ifs <;> rfl

/-- What schemas are composed to is no one object, unless it is of one schema. -/
theorem isObjectLiteral_combine {types : List Resolved} (h : ∀ r ∈ types, r.Clear Name.Plain)
    (hlength : types.length ≠ 1) (keyword : Keyword) (name : Option String) :
    (combine keyword name types).type.isObjectLiteral = false := by
  match types with
  | [] =>
    change (TypeExpr.builtin keyword.neutral).isObjectLiteral = false
    cases keyword <;> decide
  | [_] => exact absurd rfl hlength
  | r :: u :: rest =>
    have hjoined : (TypeExpr.join keyword.operator
        ((r :: u :: rest).map (operand keyword))).isObjectLiteral = false :=
      TypeExpr.isObjectLiteral_join _
        (((h r (List.mem_cons_self ..)).operand keyword).nests fun _ hn => hn)
    cases name with
    | none => exact hjoined
    | some n =>
      unfold combine
      dsimp only
      split
      · refine Text.isObjectLiteral_of_head ?_
        rw [mergedEnum, Resolved.plain, TypeExpr.render_valuesOf]
        simp
      · exact hjoined

variable {ctx : Context} {s : Schema} {name : Option String} {q : Resolved}

/-- The type of an object is written in one pair of braces. -/
theorem interface_finish (hctx : ctx.SuffixesHave Name.Plain) (hname : ∀ n ∈ name, Name.Plain n)
    (hobject : s.describesObject = true) (hnull : s.isNullable = false)
    (hq : (shape ctx s name).outcome = .ok q) : (finish s q).Interface := by
  have hmade : ∀ inner : String, s.kind? ≠ some .reference → q.isEnum = false →
      q.kind = "object" → q.type.render = "\x7b" ++ inner ++ "\x7d" →
      Text.Nested inner.toList → inner ≠ "" → (finish s q).Interface := by
    intro inner href henum hkind htext hinner hne
    refine .of_braces (by rw [isEnum_finish, henum]) (by rw [kind_finish, hkind]) ?_ hinner hne
    rw [type_finish href, hnull]
    exact htext
  cases built_of_shape hq with
  | openRecord =>
    exact hmade " [key: string]: any " (by simp [Schema.kind?]) rfl rfl rfl
      TypeExpr.nested_openRecord (by decide)
  | @record _ values _ r hr =>
    have hvalues := ((clear_shape hctx _ _ _ hr hname).finish values).nests
    exact hmade _ (by simp [Schema.kind?]) rfl rfl (TypeExpr.render_record_eq _)
      (TypeExpr.nested_record hvalues) (by simp)
  | object hnames htypes h =>
    obtain ⟨members, hmembers, h⟩ := Except.bind_eq_ok.1 h
    obtain rfl := by simpa [pure, Except.pure] using h
    have htypes := clear_members (htypes.imp (clear_shape hctx))
      (made_childNames Name.plain_laws hnames)
    exact hmade _ (by simp [Schema.kind?]) rfl rfl (TypeExpr.render_object_eq _)
      (TypeExpr.nested_members (nested_membersOf hmembers htypes)) (by simp)
  | _ => cases hobject

/-- The type of a nullable schema is no one object, nor is that of other schemas, unless they
compose one schema or describe nothing. -/
theorem noInterface_finish (hctx : ctx.SuffixesHave Name.Plain) (hname : ∀ n ∈ name, Name.Plain n)
    (h : s.isNoObject = true ∨ (s.kind? ≠ some .reference ∧ s.isNullable = true))
    (hq : (shape ctx s name).outcome = .ok q) : (finish s q).NoInterface := by
  by_cases hnull : s.kind? ≠ some .reference ∧ s.isNullable = true
  · refine .of_type (TypeExpr.ShowsNull.isObjectLiteral ?_)
    rw [type_finish hnull.1, if_pos hnull.2]
    exact showsNull_withNull q
  have hkind := h.resolve_right hnull
  have hclear := clear_shape hctx _ _ _ hq hname
  have hmade : s.kind? ≠ some .reference → q.type.isObjectLiteral = false →
      (finish s q).NoInterface := by
    intro href hliteral
    refine .of_type ?_
    rw [type_finish href, if_neg fun hflag => hnull ⟨href, hflag⟩]
    exact hliteral
  cases built_of_shape hq with
  | reference h =>
    obtain ⟨info, raw, deeper, -, -, rfl⟩ := reference_ok h
    obtain ⟨n, htype, hn⟩ := hclear.named rfl
    refine .of_type ?_
    rw [finish, htype]
    exact TypeExpr.isObjectLiteral_name hn
  | primitive raw =>
    refine hmade (by simp [Schema.kind?]) ?_
    unfold primitive
    dsimp only
    split_ifs <;> decide
  | enum raw values =>
    exact hmade (by simp [Schema.kind?]) (TypeExpr.isObjectLiteral_literals values)
  | anyArray => exact hmade (by simp [Schema.kind?]) (TypeExpr.isObjectLiteral_array _)
  | array =>
    exact hmade (by simp [Schema.kind?]) (TypeExpr.isObjectLiteral_array _)
  | @composition _ keyword schemas _ types htypes =>
    have hparts := clear_parts Name.plain_laws (htypes.imp (clear_shape hctx))
      (made_partName Name.plain_laws name keyword)
    refine hmade (by simp [Schema.kind?]) (isObjectLiteral_combine hparts ?_ keyword name)
    rw [htypes.length_eq]
    exact of_decide_eq_true hkind
  | _ => cases hkind

/-- The types of objects with properties or values of any keys are declared as interfaces, whatever
these are, where they are not nullable; those that are nullable, or of other kinds, never are. -/
theorem object_literals (hctx : ctx.SuffixesHave Name.Plain) (hname : ∀ n ∈ name, Name.Plain n)
    {r : Resolved} (h : (value ctx s name).outcome = .ok r) :
    (s.describesObject = true → s.isNullable = false → r.Interface) ∧
      (s.isNoObject = true ∨ (s.kind? ≠ some .reference ∧ s.isNullable = true) →
        r.NoInterface) := by
  obtain ⟨q, hq, rfl⟩ := value_ok.1 h
  have hgiven := made_givenName hname
  exact ⟨fun hobject hnull => interface_finish hctx hgiven hobject hnull hq,
    fun hother => noInterface_finish hctx hgiven hother hq⟩

end Resolve

/-- An object with a brace, a quote and the end of a comment where they mean nothing. -/
def bracedSchema : Schema :=
  .ofValue (.map [(.text "properties", .map [(.text "it's \x7d", .map [
    (.text "description", .text "ends */ early \x7d"),
    (.text "oneOf", .list [.map [(.text "enum", .list [.text "\x7d"])]])])])])

theorem object_literals_braced :
    (∃ r, (Resolve.value kennelContext bracedSchema none).outcome = .ok r ∧ r.type.render =
      "\x7b\n  /** ends *\\/ early \x7d */\n  'it\\'s \x7d'?: '\x7d';\n\x7d" ∧ r.Interface) ∧
    ∃ r, (Resolve.value kennelContext keptSchema (some "Kept")).outcome = .ok r ∧
      r.NoInterface := by
  constructor
  · obtain ⟨r, hr, h⟩ := Except.exists_of_any
      (x := (Resolve.value kennelContext bracedSchema none).outcome)
      (p := fun r => r.type.render =
        "\x7b\n  /** ends *\\/ early \x7d */\n  'it\\'s \x7d'?: '\x7d';\n\x7d") (by decide +kernel)
    exact ⟨r, hr, of_decide_eq_true h, (Resolve.object_literals plain_kennelContext (by simp) hr).1
      (by decide +kernel) (by decide +kernel)⟩
  · obtain ⟨r, hr, -⟩ := Except.exists_of_any
      (x := (Resolve.value kennelContext keptSchema (some "Kept")).outcome)
      (p := fun _ => true) (by decide +kernel)
    exact ⟨r, hr, (Resolve.object_literals plain_kennelContext (by decide) hr).2
      (.inr ⟨by decide +kernel, by decide +kernel⟩)⟩

end ApiTypes

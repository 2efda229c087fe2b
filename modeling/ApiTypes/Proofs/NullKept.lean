import ApiTypes.Proofs.ObjectLiterals

/-!
# Where `null` is kept

* `Model.alternatives`, `Resolved.alternatives` : what a declaration and a type are unions of;
* `Enum.literal_eq_null`, `Enum.null_not_mem` : no entry of an enum is `null`;
* `Resolve.null_kept` : the alternatives of a nullable schema in each place where it gets a name.
-/

namespace ApiTypes

/-! ## Alternatives -/

/-- The types that a part of a merged enum adds to it: the values of a constant, or literals. -/
def EnumPart.alternatives : EnumPart → List String
  | spread constant => [(TypeExpr.valuesOf constant).render]
  | values vs => (Enum.entries vs).map Prod.snd

/-- The types that a model declares a union of; for an enum, the literals of its entries. -/
def Model.alternatives : Model → List String
  | .interface _ _ t | .synonym _ _ t => Text.alternatives t.render
  | .empty .. => [TypeExpr.emptyObject.render]
  | .enum _ _ values => (Enum.entries values).map Prod.snd
  | .mergedEnum _ parts => parts.flatMap EnumPart.alternatives
  | .both first second => first.alternatives ++ second.alternatives

/-- The types that a type is a union of. The name of what is declared last beside it stands for
that. -/
def Resolved.alternatives (r : Resolved) : List String :=
  match r.type, r.declarations.getLast? with
  | .name n, some d => if d.name = n then d.model.alternatives else [n]
  | t, _ => Text.alternatives t.render

namespace Resolved

/-- A type that is no name is what its text is a union of. -/
theorem alternatives_of_ne {r : Resolved} (h : ∀ n, r.type ≠ .name n) :
    r.alternatives = Text.alternatives r.type.render := by
  unfold alternatives
  split
  · rename_i n _ htype _
    exact absurd htype (h n)
  · rfl

/-- A type that was declared stands for its declaration. -/
theorem alternatives_declared (n : String) (model : Model) (kind : String) (isRef : Bool)
    (r : Resolved) : (Resolve.declared n model kind isRef r).alternatives = model.alternatives := by
  have hlast : (Resolve.declared n model kind isRef r).declarations.getLast? =
      some ⟨n, model, r.imports⟩ := List.getLast?_concat
  rw [alternatives, hlast]
  exact if_pos rfl

end Resolved

/-! ## Entries -/

namespace Enum

/-- Only `null` is written `null`. -/
theorem literal_eq_null {v : Value} (h : literal v = "null") : v = .atom .null := by
  rcases literal_cases v with ⟨hv, -⟩ | hword | hnumber | ⟨s, hquoted⟩
  · exact hv
  · rw [h] at hword
    exact absurd hword (by decide)
  · rw [h] at hnumber
    exact absurd (hnumber 'l' (by decide)) (by decide)
  · have hhead : (literal v).toList.head? = some '\'' := by
      rw [hquoted, Text.quoted, String.toList_ofList]
      rfl
    rw [h] at hhead
    exact absurd hhead (by decide)

theorem mem_of_mem_firstOfKey {e : String × String} {es : List (String × String)}
    (h : e ∈ firstOfKey es) : e ∈ es := by
  induction es with
  | nil => exact h
  | cons d rest ih =>
    rcases List.mem_cons.1 h with rfl | h
    · exact List.mem_cons_self ..
    · exact List.mem_cons_of_mem _ (ih (List.mem_filter.1 h).1)

/-- No entry of an enum is `null`. -/
theorem null_not_mem (values : List Value) : "null" ∉ (entries values).map Prod.snd := by
  intro h
  obtain ⟨e, he, hnull⟩ := List.mem_map.1 h
  obtain ⟨v, -, hv⟩ := List.mem_filterMap.1 (mem_of_mem_firstOfKey he)
  obtain ⟨k, hkey, rfl⟩ := Option.map_eq_some_iff.1 hv
  rw [literal_eq_null hnull] at hkey
  cases hkey

end Enum

/-! ## Nullable schemas -/

namespace Resolve

variable {ctx : Context} {s : Schema} {name : Option String} {q : Resolved}

/-- What schemas are composed to is no enum and no name. -/
theorem combine_other (keyword : Keyword) (name : Option String) (types : List Resolved) :
    (combine keyword name types).isEnum = false ∧
      ∀ n, (combine keyword name types).type ≠ .name n := by
  unfold combine
  split
  · exact ⟨rfl, fun n h => TypeExpr.noConfusion h⟩
  · split
    · split
      · exact ⟨rfl, fun n h => TypeExpr.noConfusion h⟩
      · exact ⟨rfl, fun n h => TypeExpr.noConfusion h⟩
    · exact ⟨rfl, fun n h => TypeExpr.noConfusion h⟩

/-- Of the types of schemas that are no references, those that list values are enums, and none is a
name. -/
theorem shape_other (href : s.kind? ≠ some .reference) (hq : (shape ctx s name).outcome = .ok q) :
    (q.isEnum = true ↔ s.kind? = some .enum) ∧ ∀ n, q.type ≠ .name n := by
  cases built_of_shape hq with
  | reference => exact absurd rfl href
  | primitive raw =>
    unfold primitive
    dsimp only
    split_ifs <;> simp [Schema.kind?, Resolved.plain]
  | enum => simp [Schema.kind?, enum, Resolved.plain]
  | bare raw =>
    unfold bare
    dsimp only
    split_ifs <;> simp [Schema.kind?, Resolved.plain]
  | openRecord => simp [Schema.kind?, Resolved.plain]
  | anyArray => simp [Schema.kind?, Resolved.plain]
  | array => simp [Schema.kind?, arrayOf, Resolved.plain]
  | record => simp [Schema.kind?, recordOf, Resolved.plain]
  | object _ _ h =>
    obtain ⟨members, -, h⟩ := Except.bind_eq_ok.1 h
    obtain rfl := by simpa [pure, Except.pure] using h
    simp [Schema.kind?, Resolved.plain]
  | @composition raw keyword schemas _ types _ =>
    obtain ⟨henum, hname⟩ := combine_other keyword name types
    simpa [Schema.kind?, henum] using hname

theorem isRef_finish (href : s.kind? ≠ some .reference) (q : Resolved) :
    (finish s q).isRef = false := by
  cases s with
  | reference => exact absurd rfl href
  | _ => rfl

section Places
variable {r : Resolved} (htext : "null" ∈ Text.alternatives r.type.render) (href : r.isRef = false)
include htext href

/-- The definition of a union with `null` is one just when it is no enum. -/
theorem null_mem_model (hshows : r.type.ShowsNull) (n : String) (comment : Option Comment) :
    "null" ∈ (Definition.model n comment r).alternatives ↔ r.isEnum = false := by
  have hempty : r.type.render ≠ TypeExpr.emptyObject.render := by
    intro h
    have hlast := hshows.getLast
    rw [h] at hlast
    exact absurd hlast (by decide)
  rw [Definition.model, href, Bool.not_false, Bool.and_true]
  cases r.isEnum with
  | true => exact iff_of_false (Enum.null_not_mem _) (by decide)
  | false =>
    refine iff_of_true ?_ rfl
    rw [if_neg Bool.false_ne_true, if_neg hempty]
    split
    · exact htext
    · exact htext

/-- A slot of a union with `null` is one unless it is declared as an enum. -/
theorem null_mem_hoist (hne : ∀ m, r.type ≠ .name m) (n : String) (combined : Bool) :
    "null" ∈ (hoist (some n) combined r).alternatives ↔ r.isEnum = false ∨ combined = true := by
  rw [hoist, href]
  cases henum : r.isEnum with
  | true =>
    cases combined with
    | true =>
      refine iff_of_true ?_ (.inr rfl)
      rw [if_neg (by simp), if_neg (by simp), Resolved.alternatives_of_ne hne]
      exact htext
    | false =>
      refine iff_of_false ?_ (by simp)
      rw [if_neg (by simp), if_pos (by simp), Resolved.alternatives_declared]
      exact Enum.null_not_mem _
  | false =>
    refine iff_of_true ?_ (.inl rfl)
    rw [if_neg (by simp : ¬ (false && !combined && !false) = true)]
    split
    · rw [Resolved.alternatives_declared]
      split_ifs
      · exact htext
      · exact htext
    · rw [Resolved.alternatives_of_ne hne]
      exact htext

end Places

/-- No part of a merged enum adds `null` to it. -/
theorem null_not_mem_enumPart (p : EnumPart) : "null" ∉ p.alternatives := by
  cases p with
  | spread constant =>
    intro hmem
    exact TypeExpr.not_showsNull_valuesOf constant (.inl (List.mem_singleton.1 hmem).symm)
  | values vs => exact Enum.null_not_mem vs

/-- Several enums under a name are merged to one that does not have `null`. -/
theorem combine_enums (keyword : Keyword) (name : String) {types : List Resolved}
    (hlength : 1 < types.length) (henum : types.all (·.isEnum) = true) :
    ∃ d, (combine keyword (some name) types).type = .valuesOf d.name ∧
      (combine keyword (some name) types).declarations.getLast? = some d ∧
      "null" ∉ d.model.alternatives := by
  rw [combine_eq_mergedEnum keyword name hlength henum, mergedEnum]
  refine ⟨_, rfl, List.getLast?_concat, fun hmem => ?_⟩
  obtain ⟨part, -, hmem⟩ := List.mem_flatMap.1 hmem
  exact null_not_mem_enumPart part hmem

/-- Where a nullable schema, resolved under a name, keeps `null`: in a definition and in a slot (a
property, an item, a parameter) just when it is no enum, and as a part of a composition always. But
where all parts of a composition with a name are enums, they are merged to one without `null`. -/
theorem null_kept (hctx : ctx.SuffixesHave Name.Plain) {n : String} (hn : Name.Plain n)
    (href : s.kind? ≠ some .reference) (hnull : s.isNullable = true) {r : Resolved}
    (h : (value ctx s (some n)).outcome = .ok r) :
    (∀ comment, "null" ∈ (Definition.model n comment r).alternatives ↔ s.kind? ≠ some .enum) ∧
      ("null" ∈ (hoist (some n) false r).alternatives ↔ s.kind? ≠ some .enum) ∧
      "null" ∈ (hoist (some n) true r).alternatives ∧
      ∀ keyword m types, 1 < types.length → types.all (·.isEnum) = true → ∃ d,
        (combine keyword (some m) types).type = .valuesOf d.name ∧
        (combine keyword (some m) types).declarations.getLast? = some d ∧
        "null" ∉ d.model.alternatives := by
  obtain ⟨q, hq, rfl⟩ := value_ok.1 h
  have hgiven : ∀ m ∈ givenName (some n), Name.Plain m :=
    made_givenName fun m hm => Option.mem_some_iff.1 hm ▸ hn
  have hclear := (clear_shape hctx _ _ _ hq hgiven).finish s
  obtain ⟨henum, hname⟩ := shape_other href hq
  have htype : (finish s q).type = q.withNull.type := by rw [type_finish href, if_pos hnull]
  have hshows : (finish s q).type.ShowsNull := htype ▸ showsNull_withNull q
  have htext := Text.null_mem_alternatives hclear.nests hshows
  have hne : ∀ m, (finish s q).type ≠ .name m := by
    intro m
    rw [htype, Resolved.withNull]
    split
    · simp
    · exact hname m
  have hkind : (finish s q).isEnum = false ↔ s.kind? ≠ some .enum := by
    rw [isEnum_finish, ne_eq, ← henum, Bool.not_eq_true]
  have hisRef := isRef_finish href q
  refine ⟨fun comment => ?_, ?_, ?_, fun keyword m _ => combine_enums keyword m⟩
  · rw [null_mem_model htext hisRef hshows, hkind]
  · rw [null_mem_hoist htext hisRef hne, hkind]
    simp
  · rw [null_mem_hoist htext hisRef hne]
    exact .inr rfl

end Resolve

theorem null_kept_kept : ∃ r,
    (Resolve.value kennelContext keptSchema (some "Kept")).outcome = .ok r ∧
      (Resolve.hoist (some "Kept") false r).type.render = "Kept" ∧
      "null" ∈ (Resolve.hoist (some "Kept") false r).alternatives := by
  obtain ⟨r, hr, h⟩ := Except.exists_of_any
    (x := (Resolve.value kennelContext keptSchema (some "Kept")).outcome)
    (p := fun r => (Resolve.hoist (some "Kept") false r).type.render = "Kept") (by decide +kernel)
  have hplaces := Resolve.null_kept plain_kennelContext (by decide) (by decide +kernel)
    (by decide +kernel) hr
  exact ⟨r, hr, of_decide_eq_true h, hplaces.2.1.2 (by decide +kernel)⟩

/-- A value that may be `null`. -/
def soldSchema : Schema :=
  .ofValue (.map [(.text "enum", .list [.text "sold"]), (.text "nullable", .bool true)])

/-- Its definition is no union with `null`, though its type is. -/
theorem null_lost : soldSchema.kind? ≠ some .reference ∧ soldSchema.isNullable = true ∧ ∃ r,
    (Resolve.value kennelContext soldSchema (some "Status")).outcome = .ok r ∧
      r.type.render = "'sold' | null" ∧
      (Definition.model "Status" none r).alternatives = ["'sold'"] := by
  refine ⟨by decide +kernel, by decide +kernel, ?_⟩
  obtain ⟨r, hr, h⟩ := Except.exists_of_any
    (x := (Resolve.value kennelContext soldSchema (some "Status")).outcome)
    (p := fun r => r.type.render = "'sold' | null" ∧
      (Definition.model "Status" none r).alternatives = ["'sold'"]) (by decide +kernel)
  exact ⟨r, hr, of_decide_eq_true h⟩

end ApiTypes

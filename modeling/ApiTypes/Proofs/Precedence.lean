import ApiTypes.Proofs.TypeTexts

/-!
# What operators join

* `Resolve.type_finish`, `Resolve.showsNull_withNull` : where the type of a schema shows `null`;
* `Resolve.operators_bind` : in the type of a schema each operator joins what it is meant to join.
-/

namespace ApiTypes

/-! ## Types of schemas -/

namespace Resolve
open Text

/-- The type of a schema that is no reference is that of its shape, with `null` if it says so. -/
theorem type_finish {s : Schema} (href : s.kind? ≠ some .reference) (q : Resolved) :
    (finish s q).type = if s.isNullable then q.withNull.type else q.type := by
  have hfinish : finish s q = q.ofSchema s.raw := by
    cases s with
    | reference => exact absurd rfl href
    | _ => rfl
  rw [hfinish, Resolved.ofSchema, Schema.isNullable]
  split_ifs <;> rfl

theorem showsNull_withNull (q : Resolved) : q.withNull.type.ShowsNull := by
  unfold Resolved.withNull
  split
  · refine .inr (endsWith_iff.2 ⟨q.type.render.toList ++ [' '], ?_⟩)
    rw [TypeExpr.render_nullable, String.toList_append, List.append_assoc]
    rfl
  · rename_i h
    by_cases hnull : q.type.render = "null"
    · exact .inl hnull
    · exact .inr (by simpa [hnull] using h)

theorem type_withNull {q : Resolved} (h : ¬ q.type.ShowsNull) :
    q.withNull.type = .nullable q.type := by
  have hnull : q.type.render ≠ "null" ∧ (!q.type.endsInNull) = true := by
    simpa [TypeExpr.ShowsNull] using h
  rw [Resolved.withNull, if_pos hnull]

/-- The text of a list's type is that of its items before brackets. -/
theorem render_finish_array {s : Schema} (href : s.kind? ≠ some .reference) {q : Resolved}
    {item : TypeExpr} (htype : q.type = .array item) : (finish s q).type.render =
      item.render ++ "[]" ++ (if s.isNullable then " | null" else "") := by
  have hshows : ¬ q.type.ShowsNull := htype ▸ TypeExpr.not_showsNull_array item
  rw [type_finish href]
  split
  · rw [type_withNull hshows, TypeExpr.render_nullable, htype, TypeExpr.render_array]
  · rw [htype, TypeExpr.render_array, String.append_empty]

/-- In the type of a schema each operator joins what it is meant to join. -/
structure Binds (ctx : Context) (s : Schema) (name : Option String) (r : Resolved) : Prop where
  /-- The items of a list are one operand of its brackets. -/
  element : ∀ raw items, s = .array raw items → ∃ element,
    r.type.render = element ++ "[]" ++ (if s.isNullable then " | null" else "") ∧
      ¬ TopLevel '|' element ∧ ¬ TopLevel '&' element
  /-- Each part of an intersection is one operand of it. -/
  operands : ∀ raw schemas, s = .composition raw .allOf schemas → ∃ types,
    (parts ctx (partName (givenName name) .allOf) 0 schemas).outcome = .ok types ∧
      r = finish s (combine .allOf (givenName name) types) ∧
      ∀ t ∈ types, ¬ TopLevel '|' (operand .allOf t).render
  /-- What is nullable is a union with `null`. -/
  nullable : s.kind? ≠ some .reference → s.isNullable = true → "null" ∈ alternatives r.type.render

theorem operators_bind {ctx : Context} (hctx : ctx.SuffixesHave Name.Plain) {s : Schema}
    {name : Option String} (hname : ∀ n ∈ name, Name.Plain n) {r : Resolved}
    (h : (value ctx s name).outcome = .ok r) : Binds ctx s name r := by
  obtain ⟨q, hq, rfl⟩ := value_ok.1 h
  have hgiven := made_givenName hname
  have hclear := clear_shape hctx _ _ _ hq hgiven
  constructor
  · rintro raw items rfl
    have hkind : (Schema.array raw items).kind? ≠ some .reference := by simp [Schema.kind?]
    cases built_of_shape hq with
    | anyArray =>
      exact ⟨_, render_finish_array hkind rfl, by decide, by decide⟩
    | @array _ items _ r hr =>
      have hitem := made_itemName Name.plain_laws hgiven
      have helement := ((clear_shape hctx _ _ _ hr hitem).finish items).hoist hitem false
      exact ⟨_, render_finish_array hkind rfl, not_topLevel_guarded helement.nests (by decide),
        not_topLevel_guarded helement.nests (by decide)⟩
  · rintro raw schemas rfl
    cases built_of_shape hq with
    | @composition _ _ _ _ types htypes =>
      have hparts := clear_parts Name.plain_laws (htypes.imp (clear_shape hctx))
        (made_partName Name.plain_laws (givenName name) .allOf)
      exact ⟨types, parts_of_partTypes htypes, rfl,
        fun t ht => not_topLevel_operand (fun _ hn => hn) (hparts t ht)⟩
  · intro href hnull
    have hshows : (finish s q).type.ShowsNull := by
      rw [type_finish href, if_pos hnull]
      exact showsNull_withNull q
    exact null_mem_alternatives (hclear.finish s).nests hshows

end Resolve

/-- A context in which the schema of an owner is declared. -/
def kennelContext : Context :=
  .start [("/api.json", .map [(.text "components", .map [(.text "schemas", .map [
    (.text "Owner", .map [(.text "type", .text "object")])])])])] "/api.json" (.map [])

theorem plain_kennelContext : kennelContext.SuffixesHave Name.Plain := by
  intro componentType suffix hsuffix
  have hempty : kennelContext.suffixFor componentType = .ok (.text "") := rfl
  obtain rfl : "" = suffix := by simpa [Value.text, hempty] using hsuffix
  exact Name.plain_laws.empty

/-- An intersection of values, one of them with a bar, and what an owner is. -/
def keptSchema : Schema :=
  .ofValue (.map [
    (.text "allOf", .list [
      .map [(.text "enum", .list [.text "cat|dog", .text "bird"]), (.text "nullable", .bool true)],
      .map [(.text "$ref", .text "#/components/schemas/Owner")]]),
    (.text "nullable", .bool true)])

theorem operators_bind_kept : ∃ r, (Resolve.value kennelContext keptSchema (some "Kept")).outcome =
    .ok r ∧ r.type.render = "('cat|dog' | 'bird' | null) & Owner | null" ∧
      Resolve.Binds kennelContext keptSchema (some "Kept") r := by
  obtain ⟨r, hr, h⟩ := Except.exists_of_any
    (x := (Resolve.value kennelContext keptSchema (some "Kept")).outcome)
    (p := fun r => r.type.render = "('cat|dog' | 'bird' | null) & Owner | null") (by decide +kernel)
  exact ⟨r, hr, of_decide_eq_true h, Resolve.operators_bind plain_kennelContext (by decide) hr⟩

end ApiTypes

import ApiTypes.Proofs.Precedence
import ApiTypes.Proofs.Unfolding

/-!
# Types with and without declarations of their own

A schema that is read under a name gives some of its parts declarations of their own and refers to
them by name. Read without a name, it writes the same types where they are used.

* `Stage` : declarations that names can be replaced by;
* `Resolved.Inlines` : a type that unfolds to another one by its declarations, whatever others there
  are;
* `Resolve.inlineLaws` : the type that a schema has under a name unfolds to the one that it has
  without;
* `hoisting_keeps_type` : so what the text of the one says is what the text of the other says, of
  schemas in their places.
-/

namespace ApiTypes

/-- Declarations that names can be replaced by: each has a name of its own, and none that of a
builtin type. -/
structure Stage (ds : List Declaration) : Prop where
  nodup : (ds.map (·.name)).Nodup
  notBuiltin : ∀ d ∈ ds, ∀ b : Builtin, d.name ≠ b.text
  notAny : ∀ d ∈ ds, d.name ≠ TypeExpr.anyWord

namespace Stage
open Written

variable {ds : List Declaration} (h : Stage ds) {k : Nat}
include h

theorem unfolds_builtin (b : Builtin) :
    Unfolds ds k (TypeExpr.builtin b).written (TypeExpr.builtin b).written :=
  .word fun d hd => h.notBuiltin d hd b

theorem unfolds_openRecord :
    Unfolds ds k TypeExpr.openRecord.written TypeExpr.openRecord.written :=
  .object (.cons ⟨rfl, .word h.notAny⟩ .nil)

end Stage

namespace Resolved

/-- A type with its declarations among others, whose names are not those that it takes from
documents. -/
structure Within (ds : List Declaration) (r : Resolved) : Prop where
  declarations : r.declarations ⊆ ds
  foreign : ∀ i ∈ r.imports ++ r.declarations.flatMap (·.imports), i.document ≠ none →
    ∀ d ∈ ds, d.name ≠ i.name

/-- A type that is another one once its declarations are written where they are used. -/
def Inlines (r : Resolved) (t : TypeExpr) : Prop :=
  ∀ ds, Stage ds → r.Within ds → r.type.written.Unfolds ds r.declarations.length t.written

variable {ds : List Declaration} {r : Resolved} {t : TypeExpr}

/-- What a type needs is part of what a type needs that has its imports and declarations. -/
theorem Within.of_mem {rs : List Resolved} {whole : Resolved} (h : whole.Within ds)
    (himports : whole.imports = Resolve.importsOf rs)
    (hdeclarations : whole.declarations = Resolve.declarationsOf rs) (hr : r ∈ rs) :
    r.Within ds where
  declarations := by
    intro d hd
    refine h.declarations ?_
    rw [hdeclarations]
    exact List.mem_flatMap.2 ⟨r, hr, hd⟩
  foreign := by
    intro i hi
    refine h.foreign i ?_
    rw [himports, hdeclarations]
    rcases List.mem_append.1 hi with hi | hi
    · exact List.mem_append_left _ (List.mem_flatMap.2 ⟨r, hr, hi⟩)
    · obtain ⟨d, hd, hi⟩ := List.mem_flatMap.1 hi
      exact List.mem_append_right _
        (List.mem_flatMap.2 ⟨d, List.mem_flatMap.2 ⟨r, hr, hd⟩, hi⟩)

theorem length_declarations_le {rs : List Resolved} (hr : r ∈ rs) :
    r.declarations.length ≤ (Resolve.declarationsOf rs).length := by
  rw [Resolve.declarationsOf, List.flatMap]
  exact (List.sublist_flatten_of_mem (List.mem_map_of_mem hr)).length_le

/-- A type that is part of another one unfolds where that does. -/
theorem Inlines.part {rs : List Resolved} {whole : Resolved} (h : r.Inlines t) (hstage : Stage ds)
    (hwithin : whole.Within ds) (himports : whole.imports = Resolve.importsOf rs)
    (hdeclarations : whole.declarations = Resolve.declarationsOf rs) (hr : r ∈ rs) :
    r.type.written.Unfolds ds whole.declarations.length t.written := by
  rw [hdeclarations]
  exact (h ds hstage (hwithin.of_mem himports hdeclarations hr)).mono (length_declarations_le hr)

/-! ## Slots -/

/-- With `null` added where the text of the type does not show it, on both sides. -/
theorem Inlines.withNull {u : Resolved} (h : r.Inlines u.type) (hr : r.type.Told)
    (hu : u.type.Told) : r.withNull.Inlines u.withNull.type := by
  have hshows : ∀ q : Resolved, q.type.Told →
      q.withNull = { q with type := .nullable q.type } ∨ q.withNull = q ∧ q.type.AllowsNull := by
    intro q hq
    unfold Resolved.withNull
    split
    · exact .inl rfl
    · rename_i hnull
      refine .inr ⟨rfl, hq ?_⟩
      unfold TypeExpr.ShowsNull
      by_contra hcon
      rw [not_or] at hcon
      exact hnull ⟨hcon.1, by simpa using hcon.2⟩
  intro ds hstage hwithin
  have hds : ∀ d ∈ ds, d.name ≠ Builtin.null.text := fun d hd => hstage.notBuiltin d hd .null
  have hin : r.Within ds := by
    rcases hshows r hr with hr | ⟨hr, -⟩
    · rw [hr] at hwithin
      exact ⟨hwithin.declarations, hwithin.foreign⟩
    · rwa [hr] at hwithin
  have hunfolds := h ds hstage hin
  rcases hshows r hr with hr | ⟨hr, hrnull⟩ <;> rcases hshows u hu with hu | ⟨hu, hunull⟩ <;>
    rw [hr, hu]
  · exact hunfolds.nullable hds
  · exact hunfolds.nullable_left hds hunull
  · exact hunfolds.nullable_right hds hrnull
  · exact hunfolds

theorem Inlines.finish {u : Resolved} (h : r.Inlines u.type) (hr : r.ToldByText)
    (hu : u.ToldByText) (s : Schema) :
    (Resolve.finish s r).Inlines (Resolve.finish s u).type := by
  have hschema : ∀ raw, (r.ofSchema raw).Inlines (u.ofSchema raw).type := by
    intro raw
    unfold Resolved.ofSchema
    split
    · intro ds hstage hwithin
      exact h.withNull hr.told hu.told ds hstage ⟨hwithin.declarations, hwithin.foreign⟩
    · intro ds hstage hwithin
      exact h ds hstage ⟨hwithin.declarations, hwithin.foreign⟩
  cases s with
  | reference => exact h
  | _ => exact hschema _

/-- A declaration of its own stands for the type that it declares, which its text says. -/
theorem Inlines.declared (h : r.Inlines t) (hclear : r.type.Clear Name.Solid) {name : String}
    {model : Model} (hmodel : model.body? = some r.type) (kind : String) (isRef : Bool) :
    (Resolve.declared name model kind isRef r).Inlines t := by
  intro ds hstage hwithin
  have hdeclaration : ⟨name, model, r.imports⟩ ∈ ds :=
    hwithin.declarations (List.mem_append_right _ (List.mem_singleton.2 rfl))
  have hin : r.Within ds := by
    refine ⟨fun d hd => hwithin.declarations (List.mem_append_left _ hd), fun i hi => ?_⟩
    refine hwithin.foreign i (List.mem_append_right _ ?_)
    simp only [Resolve.declared, List.flatMap_append, List.flatMap_singleton]
    exact List.mem_append.2 (List.mem_append.1 hi).symm
  have hlength : (Resolve.declared name model kind isRef r).declarations.length =
      r.declarations.length + 1 := by
    simp [Resolve.declared]
  rw [hlength]
  exact .declared hstage.nodup hdeclaration hmodel
    (.of_same (Written.same_read hclear) (h ds hstage hin))

theorem Inlines.hoist (h : r.Inlines t) (hclear : r.type.Clear Name.Solid)
    (henum : r.isEnum = false) (name : Option String) (combined : Bool) :
    (Resolve.hoist name combined r).Inlines t ∧ (Resolve.hoist name combined r).isEnum = false := by
  unfold Resolve.hoist
  cases name with
  | none => exact ⟨h, henum⟩
  | some n =>
    dsimp only
    split
    · refine ⟨h.declared hclear ?_ _ _, rfl⟩
      split
      · rfl
      · rfl
    · rw [henum]
      exact ⟨h, henum⟩

end Resolved

namespace Resolve

/-- The type of a schema under a name beside its type without: no enum, and the same once
declarations are written where they are used. -/
structure Matches (ctx : Context) (s : Schema) (r : Resolved) : Prop where
  told : r.ToldByText
  clear : r.Clear Name.Solid
  isEnum : r.isEnum = false
  inlines : ∃ u, (shape ctx s none).outcome = .ok u ∧ r.Inlines u.type

/-- A type under a name that matches, where the name is solid and the schema has no enums. -/
def Agrees (ctx : Context) (s : Schema) (name : Option String) (r : Resolved) : Prop :=
  (shape ctx s name).outcome = .ok r ∧
    (s.isEnumFree ctx → (∀ n ∈ name, Name.Solid n) → Matches ctx s r)

theorem solid_withoutBar {n : String} (h : Name.Solid n) : WithoutBar n := by
  intro c hc
  rintro rfl
  exact (h '|' hc).2 (by decide)

section
variable {ctx : Context} (hctx : ctx.SuffixesHave Name.Solid)
include hctx

theorem told_shape {s : Schema} {name : Option String} {r : Resolved}
    (h : (shape ctx s name).outcome = .ok r) (hfree : s.isEnumFree ctx)
    (hname : ∀ n ∈ name, Name.Solid n) : r.ToldByText :=
  (toldLaws (hctx.mono fun _ => solid_withoutBar)).shape s name r h hfree
    fun n hn => solid_withoutBar (hname n hn)

/-- What a type of a schema shows and tells does not depend on what it unfolds to. -/
theorem Agrees.of_shape {s : Schema} {name : Option String} {r : Resolved}
    (h : (shape ctx s name).outcome = .ok r)
    (hinlines : s.isEnumFree ctx → (∀ n ∈ name, Name.Solid n) →
      r.isEnum = false ∧ ∃ u, (shape ctx s none).outcome = .ok u ∧ r.Inlines u.type) :
    Agrees ctx s name r := by
  refine ⟨h, fun hfree hname => ?_⟩
  obtain ⟨henum, hinlines⟩ := hinlines hfree hname
  exact ⟨told_shape hctx h hfree hname, solid_shape hctx h hname, henum, hinlines⟩

/-- A schema in a slot, with a declaration of its own or without. -/
theorem Matches.slot {s : Schema} {r : Resolved} (h : Matches ctx s r) (hfree : s.isEnumFree ctx)
    (name : Option String) (combined : Bool) :
    (hoist name combined (finish s r)).isEnum = false ∧
      ∃ u, (shape ctx s none).outcome = .ok u ∧
        (hoist name combined (finish s r)).Inlines (finish s u).type := by
  obtain ⟨u, hu, hinlines⟩ := h.inlines
  have htold : u.ToldByText := told_shape hctx hu hfree (by simp)
  have henum : (finish s r).isEnum = false := by
    rw [← h.isEnum]
    cases s with
    | reference => rfl
    | _ =>
      unfold finish Resolved.ofSchema Resolved.withNull
      dsimp only
      split_ifs <;> rfl
  obtain ⟨hhoist, henum⟩ :=
    (hinlines.finish h.told htold s).hoist (h.clear.finish s).type henum name combined
  exact ⟨henum, u, hu, hhoist⟩

theorem matches_members {properties : List (Atom × Schema)} {names : List (Option String)}
    {types : List Resolved} (h : MemberTypes (Agrees ctx) properties names types)
    (hfree : Schema.membersEnumFree ctx properties)
    (hnames : ∀ name ∈ names, ∀ n ∈ name, Name.Solid n) :
    ∃ us, List.Forall₂ (fun x u => x.outcome = .ok u)
        (members ctx properties (properties.map fun _ => none)) us ∧
      List.Forall₂ (fun r u => r.Inlines u.type) types us := by
  induction h with
  | nil =>
    refine ⟨[], ?_, .nil⟩
    rw [List.map_nil, members]
    · exact .nil
    · simp
  | @cons key s name r properties names types hr _ ih =>
    rw [Schema.membersEnumFree, Bool.and_eq_true] at hfree
    rw [List.forall_mem_cons] at hnames
    obtain ⟨us, hus, hinlines⟩ := ih hfree.2 hnames.2
    obtain ⟨-, u, hu, hslot⟩ :=
      (hr.2 hfree.1 (made_givenName hnames.1)).slot hctx hfree.1 (givenName name) false
    refine ⟨finish s u :: us, ?_, .cons hslot hinlines⟩
    rw [List.map_cons, members]
    exact .cons (Timed.outcome_map_ok.2 ⟨u, hu, rfl⟩) hus

theorem matches_parts {name : Option String} {count : Nat} {schemas : List Schema}
    {types : List Resolved} (h : PartTypes (Agrees ctx) name count schemas types)
    (hfree : Schema.allEnumFree ctx schemas) (hname : ∀ n ∈ name, Name.Solid n) :
    (∀ r ∈ types, r.isEnum = false) ∧ ∃ us,
      (∀ count', (parts ctx none count' schemas).outcome = .ok us) ∧
        List.Forall₂ (fun r u => r.Inlines u.type) types us := by
  induction h with
  | nil => exact ⟨by simp, [], fun _ => by rw [parts]; rfl, .nil⟩
  | @cons count s r schemas types hr _ ih =>
    rw [Schema.allEnumFree, Bool.and_eq_true] at hfree
    obtain ⟨hnone, us, hus, hinlines⟩ := ih hfree.2
    have hnumbered := made_numbered Name.Solid.laws hname count
    obtain ⟨henum, u, hu, hslot⟩ :=
      (hr.2 hfree.1 hnumbered).slot hctx hfree.1 (numbered name count) true
    refine ⟨List.forall_mem_cons.2 ⟨henum, hnone⟩, finish s u :: us, ?_, .cons hslot hinlines⟩
    intro count'
    rw [parts]
    exact Timed.outcome_bind_ok.2 ⟨u, hu, Timed.outcome_bind_ok.2 ⟨us, hus _, rfl⟩⟩

end

/-- Types side by side with those that they unfold to, where all that they need is there. -/
theorem forall₂_unfolds {ds : List Declaration} {types us : List Resolved} {whole : Resolved}
    (h : List.Forall₂ (fun r u => r.Inlines u.type) types us) (hstage : Stage ds)
    (hwithin : whole.Within ds) (himports : whole.imports = importsOf types)
    (hdeclarations : whole.declarations = declarationsOf types) :
    List.Forall₂ (fun r u => r.type.written.Unfolds ds whole.declarations.length u.type.written)
      types us := by
  have hmem := (List.forall₂_and_left (p := (· ∈ types)) types us).2 ⟨fun _ hr => hr, h⟩
  exact hmem.imp fun r u hru => hru.2.part hstage hwithin himports hdeclarations hru.1

/-- The members of an object, side by side. -/
theorem membersOf_forall₂ {R : Resolved → Resolved → Prop} {owner : Members}
    {properties : List (Atom × Schema)} {types us : List Resolved}
    (h : List.Forall₂ R types us) {ms : List (MemberHead × TypeExpr)}
    (hms : membersOf owner properties types = .ok ms) :
    ∃ ns, membersOf owner properties us = .ok ns ∧
      List.Forall₂ (fun m n => m.1 = n.1 ∧ ∃ r u, R r u ∧ m.2 = r.type ∧ n.2 = u.type) ms ns := by
  induction h generalizing properties ms with
  | nil =>
    obtain rfl : [] = ms := by
      cases properties <;> simpa [membersOf] using hms
    refine ⟨[], ?_, .nil⟩
    cases properties <;> simp [membersOf]
  | @cons r u types us hru _ ih =>
    cases properties with
    | nil =>
      obtain rfl : [] = ms := by simpa [membersOf] using hms
      exact ⟨[], by simp [membersOf], .nil⟩
    | cons property properties =>
      obtain ⟨key, s⟩ := property
      rw [membersOf] at hms
      obtain ⟨text, htext, hms⟩ := Except.bind_eq_ok.1 hms
      obtain ⟨rest, hrest, hms⟩ := Except.bind_eq_ok.1 hms
      obtain rfl : _ :: rest = ms := by simpa [pure, Except.pure] using hms
      obtain ⟨ns, hns, hall⟩ := ih hrest
      refine ⟨(memberHead owner text s.raw, u.type) :: ns, ?_,
        .cons ⟨rfl, r, u, hru, rfl, rfl⟩ hall⟩
      rw [membersOf]
      exact Except.bind_eq_ok.2 ⟨text, htext, Except.bind_eq_ok.2 ⟨ns, hns, rfl⟩⟩

theorem inlines_combine {types us : List Resolved}
    (h : List.Forall₂ (fun r u => r.Inlines u.type) types us)
    (henum : ∀ r ∈ types, r.isEnum = false) (keyword : Keyword) (name : Option String) :
    (combine keyword name types).isEnum = false ∧
      (combine keyword name types).Inlines (combine keyword none us).type := by
  cases h with
  | nil =>
    exact ⟨rfl, fun ds hstage _ => hstage.unfolds_builtin _⟩
  | @cons r u types us hru hrest =>
    have hjoined : combine keyword name (r :: types) = combine.joined keyword (r :: types) := by
      have hall : (r :: types).all (·.isEnum) = false := by simp [henum r (List.mem_cons_self ..)]
      cases name with
      | none => rfl
      | some n => simp [combine, hall]
    rw [hjoined]
    refine ⟨rfl, fun ds hstage hwithin => ?_⟩
    have hall := forall₂_unfolds (.cons hru hrest) hstage hwithin rfl rfl
    change Written.Unfolds ds _ _ (combine.joined keyword (u :: us)).type.written
    rw [TypeExpr.written_joined, TypeExpr.written_joined]
    refine .join _ ?_
    rwa [List.forall₂_map_left_iff, List.forall₂_map_right_iff]

/-- An object inlines where the types of its members do. -/
theorem inlines_object {ctx : Context} (hctx : ctx.SuffixesHave Name.Solid) {raw : Members}
    {properties : List (Atom × Schema)} {names : List (Option String)} {types : List Resolved}
    {r : Resolved} (hnames : ∀ name ∈ names, ∀ n ∈ name, Name.Solid n)
    (htypes : MemberTypes (Agrees ctx) properties names types)
    (h : objectOf raw properties types = .ok r)
    (hfree : Schema.membersEnumFree ctx properties) :
    r.isEnum = false ∧
      ∃ u, (shape ctx (.object raw properties) none).outcome = .ok u ∧ r.Inlines u.type := by
  obtain ⟨us, hus, hinlines⟩ := matches_members hctx htypes hfree hnames
  obtain ⟨ms, hms, h⟩ := Except.bind_eq_ok.1 h
  obtain rfl := by simpa [pure, Except.pure] using h
  have hmem := (List.forall₂_and_left (p := (· ∈ types)) types us).2 ⟨fun _ hr => hr, hinlines⟩
  obtain ⟨ns, hns, hall⟩ := membersOf_forall₂ hmem hms
  refine ⟨rfl, { Resolved.plain (.object ns) "object" with
      imports := importsOf us
      declarations := declarationsOf us
      raw }, ?_, ?_⟩
  · rw [shape]
    refine Timed.outcome_bind_ok.2 ⟨properties.map fun _ => none, ?_, ?_⟩
    · simp [childNames, Function.comp_def]
    · refine Timed.outcome_bind_ok.2 ⟨us, Timed.outcome_all_ok.2 hus, ?_⟩
      exact Except.bind_eq_ok.2 ⟨ns, hns, rfl⟩
  · intro ds hstage hwithin
    dsimp only [Resolved.plain]
    rw [TypeExpr.written_object, TypeExpr.written_object]
    refine .object ?_
    rw [List.forall₂_map_left_iff, List.forall₂_map_right_iff]
    refine hall.imp ?_
    rintro m n ⟨hhead, r, u, ⟨hr, hru⟩, hm, hn⟩
    rw [hm, hn, hhead]
    exact ⟨rfl, hru.part hstage hwithin rfl rfl hr⟩

/-- The type that a schema has under a name is the one that it has without, once declarations are
written where they are used. -/
theorem inlineLaws {ctx : Context} (hctx : ctx.SuffixesHave Name.Solid) :
    ShapeLaws ctx (Agrees ctx) where
  reference := by
    intro raw ref name r h
    refine .of_shape hctx ((outcomeLaws ctx).reference raw ref name r h) fun hfree _ =>
      ⟨?_, r, by rw [shape]; exact h, ?_⟩
    · obtain ⟨info, target, deeper, -, hfollow, rfl⟩ := reference_ok h
      rw [Schema.isEnumFree, hfollow] at hfree
      simpa [Except.toOption] using hfree
    · obtain ⟨info, target, deeper, -, -, rfl⟩ := reference_ok h
      intro ds _ hwithin
      refine .word (hwithin.foreign ⟨info.name, some info.document⟩ ?_ (by simp))
      exact List.mem_append_left _ (List.mem_singleton.2 rfl)
  primitive := by
    intro raw name
    refine .of_shape hctx ((outcomeLaws ctx).primitive raw name) fun _ _ =>
      ⟨?_, primitive raw, by rw [shape]; rfl, fun ds hstage _ => ?_⟩
    · unfold primitive
      dsimp only
      split_ifs <;> rfl
    · unfold primitive
      dsimp only
      split_ifs <;> exact hstage.unfolds_builtin _
  enum := by
    intro raw values name
    refine .of_shape hctx ((outcomeLaws ctx).enum raw values name) fun hfree _ => ?_
    rw [Schema.isEnumFree] at hfree
    cases hfree
  bare := by
    intro raw name
    refine .of_shape hctx ((outcomeLaws ctx).bare raw name) fun _ _ =>
      ⟨rfl, bare raw, by rw [shape]; rfl, fun ds hstage _ => ?_⟩
    unfold bare
    dsimp only
    split
    · exact .object .nil
    · exact hstage.unfolds_builtin _
  openRecord := by
    intro raw name
    exact .of_shape hctx ((outcomeLaws ctx).openRecord raw name) fun _ _ =>
      ⟨rfl, _, by rw [shape]; rfl, fun ds hstage _ => hstage.unfolds_openRecord⟩
  anyArray := by
    intro raw name
    exact .of_shape hctx ((outcomeLaws ctx).anyArray raw name) fun _ _ =>
      ⟨rfl, _, by rw [shape]; rfl, fun ds hstage _ => .array (hstage.unfolds_builtin _)⟩
  array := by
    intro raw items name r hr
    refine .of_shape hctx ((outcomeLaws ctx).array raw items name r hr.1) fun hfree hname => ?_
    rw [Schema.isEnumFree] at hfree
    have hitem := made_itemName Name.Solid.laws hname
    obtain ⟨-, u, hu, hslot⟩ := (hr.2 hfree hitem).slot hctx hfree (itemName name) false
    refine ⟨rfl, arrayOf (finish items u), ?_, fun ds hstage hwithin => ?_⟩
    · rw [shape]
      exact Timed.outcome_bind_ok.2 ⟨u, hu, rfl⟩
    · rw [TypeExpr.written_arrayOf, TypeExpr.written_arrayOf]
      exact (hslot ds hstage ⟨hwithin.declarations, hwithin.foreign⟩).array
  record := by
    intro raw values name r hr
    refine .of_shape hctx ((outcomeLaws ctx).record raw values name r hr.1) fun hfree hname => ?_
    rw [Schema.isEnumFree] at hfree
    obtain ⟨-, u, hu, hslot⟩ := (hr.2 hfree hname).slot hctx hfree none false
    refine ⟨rfl, { recordOf (finish values u) with raw }, ?_, fun ds hstage hwithin => ?_⟩
    · rw [shape]
      exact Timed.outcome_bind_ok.2 ⟨u, hu, rfl⟩
    · have hunfolds := hslot ds hstage ⟨hwithin.declarations, hwithin.foreign⟩
      exact .object (.cons ⟨rfl, hunfolds⟩ .nil)
  object := by
    intro raw properties name names types r hnames htypes h
    refine .of_shape hctx ((outcomeLaws ctx).object raw properties name names types r hnames
      (htypes.imp fun _ _ _ hr => hr.1) h) fun hfree _ => ?_
    rw [Schema.isEnumFree] at hfree
    exact inlines_object hctx (made_childNames Name.Solid.laws hnames) htypes h hfree
  composition := by
    intro raw keyword schemas name types h
    refine .of_shape hctx ((outcomeLaws ctx).composition raw keyword schemas name types
      (h.imp fun _ _ _ hr => hr.1)) fun hfree hname => ?_
    rw [Schema.isEnumFree] at hfree
    obtain ⟨henum, us, hus, hinlines⟩ := matches_parts hctx h hfree
      (made_partName Name.Solid.laws name keyword)
    obtain ⟨hcombined, hall⟩ := inlines_combine hinlines henum keyword name
    refine ⟨hcombined, combine keyword none us, ?_, hall⟩
    rw [shape]
    exact Timed.outcome_bind_ok.2 ⟨us, hus 0, rfl⟩

end Resolve

/-- Where the declarations of a schema's type have names of their own, which no builtin type and
nothing imported from a document has, the schema has a type without a name too, and its text says
the same type: the one that the text under the name says, with each declared name replaced by what
the text of its type says, again and again. -/
theorem hoisting_keeps_type {ctx : Context} {s : Schema} {name : String} {combined : Bool}
    {r : Resolved} (hr : (Resolve.slot ctx s (some name) combined).outcome = .ok r)
    (hctx : ctx.SuffixesHave Name.Solid) (hname : Name.Solid name) (hfree : s.isEnumFree ctx)
    (hstage : Stage r.declarations)
    (hforeign : ∀ i ∈ r.imports ++ r.declarations.flatMap (·.imports), i.document ≠ none →
      ∀ d ∈ r.declarations, d.name ≠ i.name) :
    ∃ u, (Resolve.slot ctx s none combined).outcome = .ok u ∧
      ∀ k ≥ r.declarations.length,
        Written.Same ((Written.replace r.declarations)^[k] (Written.read r.type.render))
          (Written.read u.type.render) ∧
        ∀ d ∈ r.declarations,
          d.name ∉ ((Written.replace r.declarations)^[k] (Written.read r.type.render)).words := by
  have hsolid : ∀ n ∈ some name, Name.Solid n := fun n hn => Option.mem_some_iff.1 hn ▸ hname
  have htext := Resolve.same_read hctx hr hsolid
  obtain ⟨_, hvalue, rfl⟩ := Resolve.slot_ok.1 hr
  obtain ⟨q, hq, rfl⟩ := Resolve.value_ok.1 hvalue
  have hmatches := ((Resolve.inlineLaws hctx).shape s _ q hq).2 hfree
    (Resolve.made_givenName hsolid)
  obtain ⟨-, u, hu, hinlines⟩ :=
    hmatches.slot hctx hfree (Resolve.givenName (some name)) combined
  have hslot : (Resolve.slot ctx s none combined).outcome = .ok (Resolve.finish s u) :=
    Resolve.slot_ok.2 ⟨_, Resolve.value_ok.2 ⟨u, hu, rfl⟩, rfl⟩
  have hunfolds := hinlines _ hstage ⟨fun _ hd => hd, hforeign⟩
  exact ⟨Resolve.finish s u, hslot,
    Written.Unfolds.of_same htext (hunfolds.same (Resolve.same_read hctx hslot (by simp)).symm)⟩

/-- A schema with objects in a property, in a list, in a composition and in that once more. -/
def kennelSchema : Schema :=
  let text : Value := .map [(.text "type", .text "string")]
  let chip : Value := .map [(.text "properties", .map [(.text "code", text)])]
  let dog : Value := .map [(.text "properties", .map [(.text "chip", chip)]),
    (.text "nullable", .bool true)]
  let owner : Value := .map [(.text "$ref", .text "#/components/schemas/Owner")]
  .ofValue (.map [(.text "properties", .map [
    (.text "dogs", .map [(.text "type", .text "array"), (.text "items", dog)]),
    (.text "guest", .map [(.text "oneOf", .list [owner, dog, .map [(.text "type", .text "null")]]),
      (.text "nullable", .bool true)])])])

/-- Its type without a name. -/
def kennelText : String :=
  let chip := "\x7b\n  chip?: \x7b\n  code?: string;\n\x7d;\n\x7d"
  "\x7b\n  dogs?: (" ++ chip ++ " | null)[];\n  guest?: Owner | " ++ chip ++ " | null | null;\n\x7d"

theorem hoisting_keeps_type_kennel : ∃ r u,
    (Resolve.slot kennelContext kennelSchema (some "Kennel") false).outcome = .ok r ∧
    r.declarations.map (·.name) = ["KennelDogsItemChip", "KennelDogsItem", "KennelGuestOneOfChip",
      "KennelGuestOneOf", "KennelGuest", "Kennel"] ∧
    (Resolve.slot kennelContext kennelSchema none false).outcome = .ok u ∧
    u.type.render = kennelText ∧
    Written.Same ((Written.replace r.declarations)^[6] (Written.read r.type.render))
      (Written.read u.type.render) := by
  obtain ⟨r, hr, h⟩ := Except.exists_of_any
    (x := (Resolve.slot kennelContext kennelSchema (some "Kennel") false).outcome)
    (p := fun r => r.declarations.map (·.name) = ["KennelDogsItemChip", "KennelDogsItem",
      "KennelGuestOneOfChip", "KennelGuestOneOf", "KennelGuest", "Kennel"] ∧
      (r.imports ++ r.declarations.flatMap (·.imports)).all fun i =>
        i.document.isNone || i.name = "Owner") (by decide +kernel)
  obtain ⟨hnames, himports⟩ := of_decide_eq_true h
  have hname : ∀ d ∈ r.declarations, d.name ∈ ["KennelDogsItemChip", "KennelDogsItem",
      "KennelGuestOneOfChip", "KennelGuestOneOf", "KennelGuest", "Kennel"] := by
    intro d hd
    rw [← hnames]
    exact List.mem_map_of_mem hd
  have hne : ∀ d ∈ r.declarations, ∀ n ∈ ["Owner", "string", "number", "boolean", "null", "Blob",
      "unknown", "never", "any"], d.name ≠ n := by
    intro d hd n hn
    have hdisjoint : ∀ m ∈ ["KennelDogsItemChip", "KennelDogsItem", "KennelGuestOneOfChip",
        "KennelGuestOneOf", "KennelGuest", "Kennel"], ∀ n ∈ ["Owner", "string", "number", "boolean",
        "null", "Blob", "unknown", "never", "any"], m ≠ n := by decide
    exact hdisjoint _ (hname d hd) n hn
  have hlength : r.declarations.length = 6 := by simpa using congrArg List.length hnames
  have hctx : kennelContext.SuffixesHave Name.Solid := by
    intro componentType suffix hsuffix
    have hempty : kennelContext.suffixFor componentType = .ok (.text "") := rfl
    obtain rfl : "" = suffix := by simpa [Value.text, hempty] using hsuffix
    decide
  obtain ⟨u, hu, hsame⟩ := hoisting_keeps_type hr hctx (by decide) (by decide +kernel)
    ⟨by rw [hnames]; decide, fun d hd b => hne d hd _ (by cases b <;> decide),
      fun d hd => hne d hd _ (by decide)⟩ (by
      intro i hi hdocument d hd
      have howner := List.all_eq_true.1 himports i hi
      rw [Bool.or_eq_true, Option.isNone_iff_eq_none] at howner
      rw [of_decide_eq_true (howner.resolve_left hdocument)]
      exact hne d hd _ (by decide))
  obtain ⟨u', hu', htext⟩ := Except.exists_of_any
    (x := (Resolve.slot kennelContext kennelSchema none false).outcome)
    (p := fun u => u.type.render = kennelText) (by decide +kernel)
  obtain rfl : u' = u := Except.ok.inj (hu'.symm.trans hu)
  exact ⟨r, u', hr, hnames, hu, of_decide_eq_true htext, (hsame 6 hlength.le).1⟩

end ApiTypes

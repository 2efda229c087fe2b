import ApiTypes.Proofs.ReorderedSchemas

/-!
# References over reordered documents

* `Context.Reordered` : two contexts that read reordered documents in the same way;
* `Context.Reordered.names_agree` : members get the same names in both;
* `Context.Reordered.locate`, `Context.Reordered.follow` : a reference leads to reordered values,
  and so does a chain, in as many steps;
* `Context.Reordered.slot` : so the types of reordered schemas are the same.
-/

namespace ApiTypes

/-- Reordered documents under one key. -/
def SameDocument (d d' : String × Value) : Prop :=
  d.1 = d'.1 ∧ Value.Reordered .document d.2 d'.2

/-- Two contexts that differ only in the order of members in their documents. -/
structure Context.Reordered (ctx ctx' : Context) : Prop where
  registry : List.Forall₂ SameDocument ctx.registry ctx'.registry
  target : ctx.target = ctx'.target
  current : ctx.current = ctx'.current
  overrides : ctx.overrides = ctx'.overrides
  visiting : ctx.visiting = ctx'.visiting

/-- Values that are reordered at some place. -/
def Value.Related (v w : Value) : Prop := ∃ role, Reordered role v w

/-- Mappings that are reordered at some place. -/
def Members.Related (ms ms' : Members) : Prop := ∃ role, Alike role ms ms'

/-- The same at a place other than the paths of a document. -/
def Value.RelatedInside (v w : Value) : Prop := ∃ role, role ≠ .paths ∧ Reordered role v w

def Members.RelatedInside (ms ms' : Members) : Prop := ∃ role, role ≠ .paths ∧ Alike role ms ms'

theorem Members.Related.saySame {ms ms' : Members} (h : ms.Related ms') : ms.SaySame ms' := by
  obtain ⟨role, h⟩ := h
  exact h.saySame

theorem Members.RelatedInside.saySame {ms ms' : Members} (h : ms.RelatedInside ms') :
    ms.SaySame ms' := by
  obtain ⟨role, -, h⟩ := h
  exact h.saySame

/-! ## Documents -/

namespace Registry

variable {r r' : Registry} (h : List.Forall₂ SameDocument r r')
include h

theorem get?_reordered (key : String) :
    Option.Rel (Value.Reordered .document) (Keyed.get? r key) (Keyed.get? r' key) := by
  induction h with
  | nil => exact .none
  | @cons d d' _ _ hd _ ih =>
    obtain ⟨name, v⟩ := d
    obtain ⟨_, w⟩ := d'
    obtain ⟨rfl, hvalue⟩ := hd
    rw [Keyed.get?, Keyed.get?]
    split_ifs
    · exact .some hvalue
    · exact ih

theorem document?_reordered (key : String) :
    Option.Rel (Value.Reordered .document) (r.document? key) (r'.document? key) := by
  have hfound := get?_reordered h key
  unfold document?
  generalize Keyed.get? r key = a, Keyed.get? r' key = b at hfound ⊢
  cases hfound with
  | none => exact .none
  | some hvalue =>
    cases hvalue.sides with
    | atom a =>
      cases a with
      | null => exact .none
      | _ => exact .some hvalue
    | list => exact .some hvalue
    | map => exact .some hvalue

theorem document_reordered (key : String) :
    Value.Reordered .document (r.document key) (r'.document key) :=
  Value.orEmpty_reordered (document?_reordered h key)

theorem length_refs :
    (r.flatMap fun d => d.2.refs).length = (r'.flatMap fun d => d.2.refs).length := by
  induction h with
  | nil => rfl
  | cons hd _ ih =>
    rw [List.flatMap_cons, List.flatMap_cons, List.length_append, List.length_append, ih,
      Value.length_refs _ _ _ hd.2]

theorem stepBound_eq : Reference.stepBound r = Reference.stepBound r' := by
  rw [Reference.stepBound, Reference.stepBound, h.length_eq, length_refs h]

end Registry

theorem schemasOf_reordered {v w : Value} (h : Value.Reordered .document v w) :
    Except.Agree Value.Related (schemasOf v) (schemasOf w) := by
  refine (Form.mapping_reordered h).bind fun ms ms' hms => ?_
  refine (Form.optionalMapping_reordered (hms.field? "components")).bind fun cs cs' hcs => ?_
  exact .ok ⟨_, Value.orEmpty_reordered (hcs.field? "schemas")⟩

theorem Form.holds_reordered {v w : Value} (h : v.Related w) (text : String) :
    holds v text = holds w text := by
  obtain ⟨role, h⟩ := h
  cases h.sides with
  | atom => rfl
  | map hms => exact congrArg Except.ok (hms.has_eq text)
  | list hitems henum =>
    refine congrArg Except.ok ?_
    clear h henum
    induction hitems with
    | nil => rfl
    | cons hv _ ih => rw [List.any_cons, List.any_cons, hv.text?_eq, ih]

namespace Context.Reordered

variable {ctx ctx' : Context} (h : ctx.Reordered ctx')
include h

theorem reading (key : String) : (ctx.reading key).Reordered (ctx'.reading key) :=
  ⟨h.registry, h.target, rfl, h.overrides, h.visiting⟩

theorem isVisiting (key pointer : String) :
    ctx.isVisiting key pointer = ctx'.isVisiting key pointer := by
  rw [Context.isVisiting, h.visiting, Context.isVisiting]

theorem entering (key pointer : String) :
    (ctx.entering key pointer).Reordered (ctx'.entering key pointer) := by
  unfold Context.entering
  rw [h.isVisiting]
  split_ifs
  · exact h
  · exact ⟨h.registry, h.target, h.current, h.overrides, by rw [h.visiting]⟩

theorem suffixFor (componentType : String) :
    ctx.suffixFor componentType = ctx'.suffixFor componentType := by
  rw [Context.suffixFor, h.overrides, Context.suffixFor]

/-! ## Names of members -/

theorem isDeclared (name : String) : ctx.isDeclared name = ctx'.isDeclared name := by
  have hschemas : Except.Agree Value.Related ctx.targetSchemas ctx'.targetSchemas := by
    unfold Context.targetSchemas
    rw [h.target]
    exact schemasOf_reordered (Registry.document_reordered h.registry _)
  unfold Context.isDeclared
  split_ifs
  · rfl
  · refine (hschemas.bind (S := (· = ·)) fun v w hvw => ?_).eq
    rw [Form.holds_reordered hvw]
    exact .refl (fun _ => rfl) _

theorem names_agree : Resolve.NamesAgree ctx ctx' := Resolve.namesAgree_of_isDeclared h.isDeclared

/-! ## References -/

theorem documentKey (part : String) :
    Reference.documentKey ctx part = Reference.documentKey ctx' part := by
  unfold Reference.documentKey
  rw [h.current]

theorem unresolved {α : Type} (ref : String) (reason : Reason) :
    (Reference.unresolved ctx ref reason : Except Fault α) =
      Reference.unresolved ctx' ref reason := by
  rw [Reference.unresolved, h.current, Reference.unresolved]

/-- A reference leads to reordered values of one document, or fails in both. -/
theorem locate (ref : String) :
    Except.Agree (fun l l' : Reference.Located =>
        l.document = l'.document ∧ l.pointer = l'.pointer ∧ l.node.Related l'.node)
      (Reference.locate ctx ref) (Reference.locate ctx' ref) := by
  unfold Reference.locate
  generalize Pointer.split ref = parts
  obtain ⟨part, pointer⟩ := parts
  refine .bind_eq (h.documentKey part) fun key => ?_
  have hdocument := Registry.document?_reordered h.registry key
  generalize ctx.registry.document? key = a, ctx'.registry.document? key = b at hdocument ⊢
  cases hdocument with
  | none =>
    dsimp only
    rw [h.unresolved]
    exact .error _
  | @some v w hvalue =>
    have hnode := Pointer.walk_reordered hvalue (Pointer.tokens pointer)
    dsimp only
    unfold Pointer.resolve
    generalize Pointer.walk v _ = x, Pointer.walk w _ = y at hnode ⊢
    cases hnode with
    | ok hrelated => exact .ok ⟨rfl, rfl, hrelated⟩
    | error e =>
      cases e with
      | dangling token =>
        dsimp only
        rw [h.unresolved]
        exact .error _
      | notNumeral => exact .error _

/-- A reference stands for one name. -/
theorem info (ref : String) : Reference.info ctx ref = Reference.info ctx' ref := by
  have hsuffix : ∀ tokens, Reference.suffixOf ctx tokens = Reference.suffixOf ctx' tokens := by
    intro tokens
    unfold Reference.suffixOf
    split
    · exact h.suffixFor _
    · rfl
  refine ((h.locate ref).bind (S := (· = ·)) fun l l' hl => ?_).eq
  obtain ⟨hdocument, hpointer, -⟩ := hl
  rw [hpointer, hdocument]
  simp only [hsuffix]
  exact .refl (fun _ => rfl) _

theorem followFor (steps : Nat) (ref : String) :
    Except.Agree (fun e e' : Members × Context => e.1.Related e'.1 ∧ e.2.Reordered e'.2)
      (Reference.followFor steps ctx ref) (Reference.followFor steps ctx' ref) := by
  induction steps generalizing ctx ctx' ref with
  | zero => exact .ok ⟨⟨.free, .inl rfl⟩, h⟩
  | succ steps ih =>
    refine (h.locate ref).bind fun l l' hl => ?_
    obtain ⟨hdocument, hpointer, role, hnode⟩ := hl
    rw [hdocument, hpointer, h.isVisiting]
    split_ifs
    · exact .ok ⟨⟨.free, .inl rfl⟩, h⟩
    · have hdeeper := (h.reading l'.document).entering l'.document l'.pointer
      generalize l.node = v, l'.node = w at hnode ⊢
      cases hnode.sides with
      | atom => exact .ok ⟨⟨.free, .inl rfl⟩, hdeeper⟩
      | list => exact .ok ⟨⟨.free, .inl rfl⟩, hdeeper⟩
      | @map ms ms' hms =>
        dsimp only
        rw [show Schema.refOf? ms = Schema.refOf? ms' from hms.saySame.ref]
        split
        · exact ih hdeeper _
        · exact .ok ⟨⟨role, hms⟩, hdeeper⟩

/-- A chain of references ends at reordered mappings. -/
theorem follow (ref : String) :
    Except.Agree (fun e e' : Members × Context => e.1.Related e'.1 ∧ e.2.Reordered e'.2)
      (Reference.follow ctx ref) (Reference.follow ctx' ref) := by
  unfold Reference.follow
  rw [Registry.stepBound_eq h.registry]
  exact h.followFor _ ref

end Context.Reordered

/-! ## The types of references and schemas -/

namespace Resolve

/-- The type of a reference by the kind of what it leads to. -/
theorem reference_eq (ctx : Context) (ref : String) : reference ctx ref = (do
    let info ← Reference.info ctx ref
    let (raw, _) ← Reference.follow ctx ref
    if (Schema.ofValue (.map raw)).kind?.isNone then Form.fail .notKey
    else return {
      type := .name info.name
      imports := [⟨info.name, some info.document⟩]
      declarations := []
      isEnum := (Schema.enumOf? raw).isSome
      kind := ((Schema.typeNameOf? raw).filter (· ≠ "")).getD "object"
      isRef := true
      raw }) := by
  unfold reference
  refine congrArg _ (funext fun info => congrArg _ (funext fun ⟨raw, _⟩ => ?_))
  dsimp only
  cases Schema.ofValue (.map raw) <;> rfl

end Resolve

namespace Context.Reordered

variable {ctx ctx' : Context} (h : ctx.Reordered ctx')
include h

theorem reference (ref : String) :
    Except.Agree Resolved.Alike (Resolve.reference ctx ref) (Resolve.reference ctx' ref) := by
  rw [Resolve.reference_eq, Resolve.reference_eq]
  refine .bind_eq (h.info ref) fun info => (h.follow ref).bind fun e e' he => ?_
  obtain ⟨raw, _⟩ := e
  obtain ⟨raw', _⟩ := e'
  obtain ⟨⟨role, hraw⟩, -⟩ := he
  dsimp only at hraw ⊢
  rw [Schema.kind?_ofValue hraw, hraw.saySame.values, hraw.saySame.typeName]
  split_ifs
  · exact .error _
  · exact .ok ⟨raw', hraw.saySame, rfl⟩

theorem reference_agrees (s : Schema) : Resolve.ReferenceAgrees ctx ctx' s := by
  cases s with
  | reference raw ref => exact h.reference ref
  | _ => trivial

/-- The types of schemas of one shape are the same. -/
theorem value {s s' : Schema} (hs : s.Alike s') (name : Option String) :
    Timed.Agree Resolved.Alike (Resolve.value ctx s name) (Resolve.value ctx' s' name) :=
  Resolve.value_agree h.names_agree hs (fun t _ => h.reference_agrees t) name

theorem slot {s s' : Schema} (hs : s.Alike s') (name : Option String) (combined : Bool) :
    Timed.Agree Resolved.Alike (Resolve.slot ctx s name combined)
      (Resolve.slot ctx' s' name combined) :=
  Resolve.slot_agree h.names_agree hs (fun t _ => h.reference_agrees t) name combined

end Context.Reordered
end ApiTypes

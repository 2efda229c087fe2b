import ApiTypes.Proofs.Alike
import ApiTypes.Proofs.Keeping

/-!
# Types whose references end elsewhere

The type of a reference keeps the mapping at the reference's end. All that is shown of this mapping
is its comment.

* `Resolved.SameEnd` : the same type, with another mapping at its end if it is a reference;
* `Resolve.finish_sameEnd`, `Resolve.hoist_sameEnd`, `Resolve.combine_sameEnd` and the like : what
  is made of such types is the same;
* `Resolve.shape_kept` : so the type of a schema is kept where the types of its references are.
-/

namespace ApiTypes

/-- The same type. If it is a reference, the mapping at its end may be another one with the same
comment. -/
def Resolved.SameEnd (r q : Resolved) : Prop :=
  q = r ∨ r.isRef = true ∧
    ∃ raw, Comment.ofMembers? raw = Comment.ofMembers? r.raw ∧ q = { r with raw }

namespace Resolved.SameEnd

variable {r q : Resolved}

theorem refl (r : Resolved) : SameEnd r r := .inl rfl

theorem type_eq (h : r.SameEnd q) : q.type = r.type := by
  rcases h with rfl | ⟨-, raw, -, rfl⟩
  · rfl
  · rfl

end Resolved.SameEnd

namespace Resolve

section
variable {r q : Resolved} (h : r.SameEnd q)
include h

theorem finish_sameEnd (s : Schema) : (finish s r).SameEnd (finish s q) := by
  rcases h with rfl | ⟨href, raw, hraw, rfl⟩
  · exact .refl _
  · cases s with
    | reference own ref => exact .inr ⟨href, raw, hraw, rfl⟩
    | _ =>
      refine .inl ?_
      unfold finish Resolved.ofSchema Resolved.withNull
      dsimp only
      split_ifs <;> rfl

/-- A reference gets a declaration of its own only if its name looks like a compound type. Then the
comment shows. -/
theorem hoist_sameEnd (name : Option String) (combined : Bool) :
    (hoist name combined r).SameEnd (hoist name combined q) := by
  rcases h with rfl | ⟨href, raw, hraw, rfl⟩
  · exact .refl _
  · cases name with
    | none => exact .inr ⟨href, raw, hraw, rfl⟩
    | some n =>
      have hnoEnum : (r.isEnum && !combined && !r.isRef) = false := by
        rw [href, Bool.not_true, Bool.and_false]
      unfold hoist
      dsimp only
      rw [hraw, hnoEnum, if_neg Bool.false_ne_true, if_neg Bool.false_ne_true]
      split_ifs
      · exact .inr ⟨href, raw, hraw, rfl⟩
      · exact .inr ⟨href, raw, hraw, rfl⟩
      · exact .inr ⟨href, raw, hraw, rfl⟩

theorem arrayOf_sameEnd : arrayOf q = arrayOf r := by
  rcases h with rfl | ⟨-, raw, -, rfl⟩
  · rfl
  · rfl

theorem recordOf_sameEnd : recordOf q = recordOf r := by
  rcases h with rfl | ⟨-, raw, -, rfl⟩
  · rfl
  · rfl

end

section
variable {rs qs : List Resolved} (h : List.Forall₂ Resolved.SameEnd rs qs)
include h

/-- What does not read the mappings at the ends of references is the same. -/
theorem map_sameEnd {α : Type} {f : Resolved → α}
    (hf : ∀ r raw, r.isRef = true → f { r with raw } = f r) : qs.map f = rs.map f := by
  induction h with
  | nil => rfl
  | cons hr _ ih =>
    rw [List.map_cons, List.map_cons, ih]
    rcases hr with rfl | ⟨href, raw, -, rfl⟩
    · rfl
    · rw [hf _ raw href]

theorem importsOf_sameEnd : importsOf qs = importsOf rs := by
  rw [importsOf, importsOf, List.flatMap_def, List.flatMap_def, map_sameEnd h fun _ _ _ => rfl]

theorem declarationsOf_sameEnd : declarationsOf qs = declarationsOf rs := by
  rw [declarationsOf, declarationsOf, List.flatMap_def, List.flatMap_def,
    map_sameEnd h fun _ _ _ => rfl]

theorem combine_sameEnd (keyword : Keyword) (name : Option String) :
    combine keyword name qs = combine keyword name rs := by
  have himports := importsOf_sameEnd h
  have hdeclarations := declarationsOf_sameEnd h
  have hoperands : qs.map (operand keyword) = rs.map (operand keyword) :=
    map_sameEnd h fun _ _ _ => rfl
  have hparts : qs.map enumPart = rs.map enumPart := by
    refine map_sameEnd h fun r raw href => ?_
    unfold enumPart
    dsimp only
    rw [href]
    rfl
  have henums : qs.all (·.isEnum) = rs.all (·.isEnum) := by
    have hflags : qs.map (·.isEnum) = rs.map (·.isEnum) := map_sameEnd h fun _ _ _ => rfl
    simpa [List.all_map] using congrArg (·.all id) hflags
  cases h with
  | nil => rfl
  | cons hr hrest =>
    have hlength := (List.Forall₂.cons hr hrest).length_eq
    unfold combine combine.joined mergedEnum
    rw [himports, hdeclarations, hoperands, hparts, henums, hlength]

theorem membersOf_sameEnd (owner : Members) (properties : List (Atom × Schema)) :
    membersOf owner properties qs = membersOf owner properties rs := by
  induction properties generalizing rs qs with
  | nil =>
    rw [membersOf, membersOf]
    · simp
    · simp
  | cons p rest ih =>
    cases h with
    | nil => rfl
    | cons hr hrs => rw [membersOf, membersOf, ih hrs, hr.type_eq]

theorem objectOf_sameEnd (owner : Members) (properties : List (Atom × Schema)) :
    objectOf owner properties qs = objectOf owner properties rs := by
  unfold objectOf
  rw [membersOf_sameEnd h, importsOf_sameEnd h, declarationsOf_sameEnd h]

end

/-! ## The types of schemas -/

variable {ctx ctx' : Context}

/-- The type of a schema is kept if it is a reference. -/
def ReferenceKept (ctx ctx' : Context) : Schema → Prop
  | .reference _ ref => Except.Keeps Resolved.SameEnd (reference ctx ref) (reference ctx' ref)
  | _ => True

/-- The type of a schema is kept where those of its references are. -/
def ShapeKept (ctx ctx' : Context) (s : Schema) (name : Option String) (r : Resolved) : Prop :=
  (∀ t ∈ s.inside, ReferenceKept ctx ctx' t) →
    ∃ q, (shape ctx' s name).outcome = .ok q ∧ r.SameEnd q

theorem memberTypes_kept {properties : List (Atom × Schema)} {names : List (Option String)}
    {types : List Resolved} (h : MemberTypes (ShapeKept ctx ctx') properties names types)
    (hrefs : ∀ t ∈ Schema.insideProperties properties, ReferenceKept ctx ctx' t) :
    ∃ types', MemberTypes (fun s name q => (shape ctx' s name).outcome = .ok q) properties names
      types' ∧ List.Forall₂ Resolved.SameEnd types types' := by
  induction h with
  | nil => exact ⟨[], .nil, .nil⟩
  | @cons key s name r _ _ _ hr _ ih =>
    rw [Schema.insideProperties, List.forall_mem_append] at hrefs
    obtain ⟨q, hq, hrq⟩ := hr hrefs.1
    obtain ⟨types', htypes', hsame⟩ := ih hrefs.2
    exact ⟨_, .cons hq htypes', .cons (hoist_sameEnd (finish_sameEnd hrq s) _ _) hsame⟩

theorem partTypes_kept {name : Option String} {count : Nat} {schemas : List Schema}
    {types : List Resolved} (h : PartTypes (ShapeKept ctx ctx') name count schemas types)
    (hrefs : ∀ t ∈ Schema.insideAll schemas, ReferenceKept ctx ctx' t) :
    ∃ types', PartTypes (fun s name q => (shape ctx' s name).outcome = .ok q) name count schemas
      types' ∧ List.Forall₂ Resolved.SameEnd types types' := by
  induction h with
  | nil => exact ⟨[], .nil, .nil⟩
  | @cons count s r _ _ hr _ ih =>
    rw [Schema.insideAll, List.forall_mem_append] at hrefs
    obtain ⟨q, hq, hrq⟩ := hr hrefs.1
    obtain ⟨types', htypes', hsame⟩ := ih hrefs.2
    have hslot := hoist_sameEnd (finish_sameEnd hrq s) (numbered name count) true
    -- the later parts are numbered after the declarations of this one
    have hcount : nextCount count (hoist (numbered name count) true (finish s r)) =
        nextCount count (hoist (numbered name count) true (finish s q)) := by
      rcases hslot with heq | ⟨-, raw, -, heq⟩
      · rw [heq]
      · rw [heq]
        rfl
    exact ⟨_, .cons hq (hcount ▸ htypes'), .cons hslot hsame⟩

/-- Each way to make a type of others keeps it. -/
theorem keptLaws (hnames : NamesAgree ctx ctx') : ShapeLaws ctx (ShapeKept ctx ctx') where
  reference raw ref name r h hrefs := by
    obtain ⟨q, hq, hrq⟩ := hrefs _ (List.mem_cons_self ..) r h
    exact ⟨q, (outcomeLaws ctx').reference raw ref name q hq, hrq⟩
  primitive raw name _ := ⟨_, (outcomeLaws ctx').primitive raw name, .refl _⟩
  enum raw values name _ := ⟨_, (outcomeLaws ctx').enum raw values name, .refl _⟩
  bare raw name _ := ⟨_, (outcomeLaws ctx').bare raw name, .refl _⟩
  openRecord raw name _ := ⟨_, (outcomeLaws ctx').openRecord raw name, .refl _⟩
  anyArray raw name _ := ⟨_, (outcomeLaws ctx').anyArray raw name, .refl _⟩
  array raw items name r h hrefs := by
    rw [Schema.inside, Schema.beneath, List.forall_mem_cons] at hrefs
    obtain ⟨q, hq, hrq⟩ := h hrefs.2
    refine ⟨_, (outcomeLaws ctx').array raw items name q hq, .inl ?_⟩
    exact arrayOf_sameEnd (hoist_sameEnd (finish_sameEnd hrq items) _ _)
  record raw values name r h hrefs := by
    rw [Schema.inside, Schema.beneath, List.forall_mem_cons] at hrefs
    obtain ⟨q, hq, hrq⟩ := h hrefs.2
    refine ⟨_, (outcomeLaws ctx').record raw values name q hq, .inl ?_⟩
    rw [recordOf_sameEnd (finish_sameEnd hrq values)]
  object raw properties name names types r hkeys htypes h hrefs := by
    rw [Schema.inside, Schema.beneath, List.forall_mem_cons] at hrefs
    obtain ⟨types', htypes', hsame⟩ := memberTypes_kept htypes hrefs.2
    refine ⟨r, (outcomeLaws ctx').object raw properties name names types' r ?_ htypes' ?_, .refl _⟩
    · rw [← hnames, hkeys]
    · rw [objectOf_sameEnd hsame, h]
  composition raw keyword schemas name types htypes hrefs := by
    rw [Schema.inside, Schema.beneath, List.forall_mem_cons] at hrefs
    obtain ⟨types', htypes', hsame⟩ := partTypes_kept htypes hrefs.2
    refine ⟨_, (outcomeLaws ctx').composition raw keyword schemas name types' htypes', .inl ?_⟩
    exact combine_sameEnd hsame keyword name

section
variable (hnames : NamesAgree ctx ctx') {s : Schema}
  (hrefs : ∀ t ∈ s.inside, ReferenceKept ctx ctx' t)
include hnames hrefs

theorem shape_kept (name : Option String) :
    Timed.Keeps Resolved.SameEnd (shape ctx s name) (shape ctx' s name) :=
  fun r h => (keptLaws hnames).shape s name r h hrefs

theorem value_kept (name : Option String) :
    Timed.Keeps Resolved.SameEnd (value ctx s name) (value ctx' s name) :=
  (shape_kept hnames hrefs _).map fun _ _ h => finish_sameEnd h s

theorem slot_kept (name : Option String) (combined : Bool) :
    Timed.Keeps Resolved.SameEnd (slot ctx s name combined) (slot ctx' s name combined) :=
  (value_kept hnames hrefs name).map fun _ _ h => hoist_sameEnd h _ _

end
end Resolve
end ApiTypes

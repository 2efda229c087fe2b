import ApiTypes.Definition
import ApiTypes.Operation
import ApiTypes.Proofs.Alike
import ApiTypes.Proofs.Carrying

/-!
# Types under other keys

What a schema's type says of documents are the keys in its imports. Where the documents have other
keys, the type is the same but for these.

* `Import.moved`, `Declaration.moved`, `Resolved.moved`, `Operation.moved` : imports, declarations,
  types and operations with other keys;
* `Resolve.hoist_moved`, `Resolve.combine_moved` and the like : types are made of others in one way,
  whatever the keys;
* `Resolve.movedLaws`, `Resolve.value_moved` : so the type of a schema is the same under other keys
  if its references are, and members get the same names.
-/

namespace ApiTypes

variable {move : String → String}

/-! ## Imports, declarations, types and operations -/

/-- An import whose document has another key. -/
def Import.moved (move : String → String) (i : Import) : Import :=
  { i with document := i.document.map move }

/-- A declaration whose imports have other keys. -/
def Declaration.moved (move : String → String) (d : Declaration) : Declaration :=
  { d with imports := d.imports.map (·.moved move) }

/-- A type whose imports have other keys. -/
def Resolved.moved (move : String → String) (r : Resolved) : Resolved :=
  { r with
    imports := r.imports.map (·.moved move)
    declarations := r.declarations.map (·.moved move) }

/-- An operation whose imports have other keys. -/
def Operation.moved (move : String → String) (op : Operation) : Operation :=
  { op with
    imports := op.imports.map (·.moved move)
    declarations := op.declarations.map (·.moved move) }

@[simp]
theorem Import.moved_here (name : String) : (Import.here name).moved move = .here name := rfl

@[simp]
theorem Import.moved_id (i : Import) : i.moved id = i := by
  rw [moved, Option.map_id]
  rfl

@[simp]
theorem Declaration.moved_id (d : Declaration) : d.moved id = d := by
  rw [moved, List.map_congr_left fun i _ => i.moved_id, List.map_id']

@[simp]
theorem Declaration.moved_name (d : Declaration) : (d.moved move).name = d.name := rfl

section
variable (r : Resolved)

@[simp] theorem Resolved.moved_type : (r.moved move).type = r.type := rfl
@[simp] theorem Resolved.moved_isEnum : (r.moved move).isEnum = r.isEnum := rfl
@[simp] theorem Resolved.moved_kind : (r.moved move).kind = r.kind := rfl
@[simp] theorem Resolved.moved_isRef : (r.moved move).isRef = r.isRef := rfl
@[simp] theorem Resolved.moved_raw : (r.moved move).raw = r.raw := rfl

end

@[simp]
theorem Resolved.moved_plain (type : TypeExpr) (kind : String) :
    (plain type kind).moved move = plain type kind := rfl

/-! ## Declarations put together -/

namespace Declaration

theorem insert_moved (ds : List Declaration) (e : Declaration) :
    insert (ds.map (·.moved move)) (e.moved move) = (insert ds e).map (·.moved move) := by
  induction ds with
  | nil => rfl
  | cons d rest ih =>
    rw [List.map_cons, insert, insert, moved_name, moved_name]
    split_ifs
    · rw [List.map_cons]
      simp only [join, moved, List.map_append]
    · rw [List.map_cons, ih]

theorem merge_moved (ds : List Declaration) :
    merge (ds.map (·.moved move)) = (merge ds).map (·.moved move) := by
  have hfoldl : ∀ acc : List Declaration, (ds.map (·.moved move)).foldl insert
      (acc.map (·.moved move)) = (ds.foldl insert acc).map (·.moved move) := by
    induction ds with
    | nil => exact fun _ => rfl
    | cons d rest ih =>
      intro acc
      rw [List.map_cons, List.foldl_cons, List.foldl_cons, insert_moved, ih]
  exact hfoldl []

end Declaration

/-- The first of each name is the same under other keys. -/
theorem firstOfName_map {α : Type} {name : α → String} {f : α → α}
    (hf : ∀ a, name (f a) = name a) (as : List α) :
    firstOfName name (as.map f) = (firstOfName name as).map f := by
  induction as with
  | nil => rfl
  | cons a rest ih =>
    rw [List.map_cons, firstOfName, firstOfName, ih, List.map_cons, List.filter_map]
    simp only [Function.comp_def, hf]

/-- What is in a list is in it under other keys, if these stay different. -/
theorem contains_map {α : Type} [BEq α] [LawfulBEq α] {f : α → α} {as : List α} {a : α}
    (h : ∀ b ∈ as, f b = f a → b = a) : (as.map f).contains (f a) = as.contains a := by
  rw [Bool.eq_iff_iff, List.contains_iff_mem, List.contains_iff_mem, List.mem_map]
  constructor
  · rintro ⟨b, hb, heq⟩
    exact h b hb heq ▸ hb
  · exact fun hmem => ⟨a, hmem, rfl⟩

namespace Resolve

theorem primitive_moved (raw : Members) : (primitive raw).moved move = primitive raw := by
  unfold primitive
  dsimp only
  simp only [apply_ite (Resolved.moved move), Resolved.moved_plain]

/-! ## Types made of others -/

theorem withNull_moved (r : Resolved) : (r.moved move).withNull = r.withNull.moved move := by
  unfold Resolved.withNull
  rw [Resolved.moved_type]
  split_ifs <;> rfl

theorem finish_moved (s : Schema) (r : Resolved) :
    finish s (r.moved move) = (finish s r).moved move := by
  have hschema : ∀ raw, (r.moved move).ofSchema raw = (r.ofSchema raw).moved move := by
    intro raw
    unfold Resolved.ofSchema
    dsimp only
    rw [withNull_moved]
    split_ifs <;> rfl
  cases s with
  | reference raw ref => rfl
  | _ => exact hschema _

theorem declared_moved (name : String) (model : Model) (kind : String) (isRef : Bool)
    (r : Resolved) : declared name model kind isRef (r.moved move) =
      (declared name model kind isRef r).moved move := by
  simp only [declared, Resolved.moved, Declaration.moved, List.map_append, List.map_cons,
    List.map_nil, Import.moved_here]

theorem hoist_moved (name : Option String) (combined : Bool) (r : Resolved) :
    hoist name combined (r.moved move) = (hoist name combined r).moved move := by
  cases name with
  | none => rfl
  | some n =>
    simp only [hoist, Resolved.moved_type, Resolved.moved_isEnum, Resolved.moved_kind,
      Resolved.moved_isRef, Resolved.moved_raw, declared_moved, apply_ite (Resolved.moved move)]
    rfl

/-- What goes into a slot. -/
theorem slotted_moved (name : Option String) (combined : Bool) (s : Schema) (r : Resolved) :
    hoist name combined (finish s (r.moved move)) =
      (hoist name combined (finish s r)).moved move := by
  rw [finish_moved, hoist_moved]

section
variable (types : List Resolved)

theorem importsOf_moved :
    importsOf (types.map (·.moved move)) = (importsOf types).map (·.moved move) := by
  rw [importsOf, importsOf, List.flatMap_map, List.map_flatMap]
  rfl

theorem declarationsOf_moved :
    declarationsOf (types.map (·.moved move)) = (declarationsOf types).map (·.moved move) := by
  rw [declarationsOf, declarationsOf, List.flatMap_map, List.map_flatMap]
  rfl

theorem membersOf_moved (owner : Members) (properties : List (Atom × Schema)) :
    membersOf owner properties (types.map (·.moved move)) = membersOf owner properties types := by
  induction properties generalizing types with
  | nil =>
    rw [membersOf, membersOf]
    · simp
    · simp
  | cons p rest ih =>
    cases types with
    | nil => rfl
    | cons r types =>
      rw [List.map_cons, membersOf, membersOf, ih]
      rfl

theorem objectOf_moved (owner : Members) (properties : List (Atom × Schema)) :
    Except.Carries (·.moved move) (objectOf owner properties types)
      (objectOf owner properties (types.map (·.moved move))) := by
  unfold objectOf
  rw [membersOf_moved, importsOf_moved, declarationsOf_moved]
  exact .same fun members _ => .ok _

theorem combine_moved (keyword : Keyword) (name : Option String) :
    combine keyword name (types.map (·.moved move)) =
      (combine keyword name types).moved move := by
  have hjoined : combine.joined keyword (types.map (·.moved move)) =
      (combine.joined keyword types).moved move := by
    unfold combine.joined
    rw [importsOf_moved, declarationsOf_moved, List.map_map]
    rfl
  have hmerged : ∀ n, mergedEnum n (types.map (·.moved move)) =
      (mergedEnum n types).moved move := by
    intro n
    unfold mergedEnum
    rw [importsOf_moved, declarationsOf_moved, List.map_map]
    simp only [Resolved.moved, Declaration.moved, List.map_append, List.map_cons, List.map_nil,
      Import.moved_here]
    rfl
  have henums : (types.map (·.moved move)).all (·.isEnum) = types.all (·.isEnum) := by
    rw [List.all_map]
    rfl
  cases types with
  | nil => rfl
  | cons r rest =>
    cases name with
    | none => exact hjoined
    | some n =>
      change (if 1 < ((r :: rest).map (·.moved move)).length ∧
          ((r :: rest).map (·.moved move)).all (·.isEnum) then
        mergedEnum n ((r :: rest).map (·.moved move))
        else combine.joined keyword ((r :: rest).map (·.moved move))) = _
      rw [List.length_map, henums, hmerged, hjoined, ← apply_ite (Resolved.moved move)]
      rfl

end

/-! ## The types of schemas -/

variable {ctx ctx' : Context}

/-- The type of a schema is the same under other keys if it is a reference. -/
def MovesAlone (move : String → String) (ctx ctx' : Context) : Schema → Prop
  | .reference _ ref => Except.Carries (·.moved move) (reference ctx ref) (reference ctx' ref)
  | _ => True

theorem movesAlone_of_refs {s : Schema}
    (h : ∀ ref ∈ s.refs, Except.Carries (·.moved move) (reference ctx ref) (reference ctx' ref)) :
    ∀ t ∈ s.inside, MovesAlone move ctx ctx' t := by
  intro t ht
  cases t with
  | reference raw ref => exact h ref (Schema.mem_refs.2 ⟨raw, ht⟩)
  | _ => trivial

/-- The type of a schema is the same under other keys if its references are. -/
def Moves (move : String → String) (ctx ctx' : Context) (s : Schema) (name : Option String)
    (r : Resolved) : Prop :=
  (∀ t ∈ s.inside, MovesAlone move ctx ctx' t) →
    (shape ctx' s name).outcome = .ok (r.moved move)

theorem members_moved {properties : List (Atom × Schema)} {names : List (Option String)}
    {types : List Resolved} (h : MemberTypes (Moves move ctx ctx') properties names types)
    (hinside : ∀ t ∈ Schema.insideProperties properties, MovesAlone move ctx ctx' t) :
    MemberTypes (fun s name r => (shape ctx' s name).outcome = .ok r) properties names
      (types.map (·.moved move)) := by
  induction h with
  | nil => exact .nil
  | cons hr _ ih =>
    rw [Schema.insideProperties, List.forall_mem_append] at hinside
    rw [List.map_cons, ← slotted_moved]
    exact .cons (hr hinside.1) (ih hinside.2)

theorem parts_moved {name : Option String} {count : Nat} {schemas : List Schema}
    {types : List Resolved} (h : PartTypes (Moves move ctx ctx') name count schemas types)
    (hinside : ∀ t ∈ Schema.insideAll schemas, MovesAlone move ctx ctx' t) :
    PartTypes (fun s name r => (shape ctx' s name).outcome = .ok r) name count schemas
      (types.map (·.moved move)) := by
  induction h with
  | nil => exact .nil
  | @cons count s r _ _ hr _ ih =>
    rw [Schema.insideAll, List.forall_mem_append] at hinside
    have hcount : nextCount count (hoist (numbered name count) true (finish s (r.moved move))) =
        nextCount count (hoist (numbered name count) true (finish s r)) := by
      rw [slotted_moved, nextCount, nextCount, Resolved.moved, List.isEmpty_map]
    rw [List.map_cons, ← slotted_moved]
    refine .cons (hr hinside.1) ?_
    rw [hcount]
    exact ih hinside.2

/-- Types are made in the same way under other keys, where members get the same names. -/
theorem movedLaws (hnames : NamesAgree ctx ctx') : ShapeLaws ctx (Moves move ctx ctx') where
  reference raw ref name r hr h := (outcomeLaws ctx').reference raw ref name _
    (h (.reference raw ref) (List.mem_cons_self ..) r hr)
  primitive raw name _ := by
    rw [primitive_moved]
    exact (outcomeLaws ctx').primitive raw name
  enum raw values name _ := (outcomeLaws ctx').enum raw values name
  bare raw name _ := (outcomeLaws ctx').bare raw name
  openRecord raw name _ := (outcomeLaws ctx').openRecord raw name
  anyArray raw name _ := (outcomeLaws ctx').anyArray raw name
  array raw items name r hr h := by
    rw [Schema.inside, Schema.beneath, List.forall_mem_cons] at h
    have harray := (outcomeLaws ctx').array raw items name _ (hr h.2)
    rwa [slotted_moved] at harray
  record raw values name r hr h := by
    rw [Schema.inside, Schema.beneath, List.forall_mem_cons] at h
    have hrecord := (outcomeLaws ctx').record raw values name _ (hr h.2)
    rwa [finish_moved] at hrecord
  object raw properties name names types r hchildren htypes hr h := by
    rw [Schema.inside, Schema.beneath, List.forall_mem_cons] at h
    rw [hnames] at hchildren
    exact (outcomeLaws ctx').object raw properties name names _ _ hchildren
      (members_moved htypes h.2) (objectOf_moved types raw properties r hr)
  composition raw keyword schemas name types htypes h := by
    rw [Schema.inside, Schema.beneath, List.forall_mem_cons] at h
    rw [← combine_moved]
    exact (outcomeLaws ctx').composition raw keyword schemas name _ (parts_moved htypes h.2)

section
variable (hnames : NamesAgree ctx ctx') {s : Schema}
  (h : ∀ t ∈ s.inside, MovesAlone move ctx ctx' t)
include hnames h

theorem value_moved (name : Option String) :
    Timed.Carries (·.moved move) (value ctx s name) (value ctx' s name) := by
  intro r hr
  obtain ⟨q, hq, rfl⟩ := value_ok.1 hr
  exact value_ok.2 ⟨q.moved move, (movedLaws hnames).shape s _ q hq h, finish_moved s q⟩

theorem slot_moved (name : Option String) (combined : Bool) :
    Timed.Carries (·.moved move) (slot ctx s name combined) (slot ctx' s name combined) :=
  (value_moved hnames h name).map fun r => hoist_moved _ combined r

end
end Resolve
end ApiTypes

import ApiTypes.Proofs.Shape

/-!
# How computations fail

* `FailsOnly P x` : every failure of `x` is one of which `P` holds; what is made in steps fails only
  as its steps do (`FailsOnly.bind`, `Timed.failsOnly_bind`, `Timed.failsOnly_all`);
* `Form.failsOnly_mapping` and the like : a value of another form than its place needs is a defect;
* `Schema.inside`, `Schema.refs` : the schemas in a schema, and the references that it is made of;
* `Resolve.failsOnly_shape` : the type of a schema fails only on what the schemas in it fail on;
  `Resolve.failsAlone_of_refs` : on defects and on these references.
-/

namespace ApiTypes

/-! ## Failures of sequences -/

/-- Every failure of a computation is one of which `P` holds. -/
def FailsOnly {ε α : Type} (P : ε → Prop) (x : Except ε α) : Prop := ∀ e, x = .error e → P e

section
variable {ε α β : Type} {P Q : ε → Prop}

theorem failsOnly_ok (a : α) : FailsOnly P (.ok a : Except ε α) := by
  intro e he
  cases he

theorem failsOnly_error {e : ε} (h : P e) : FailsOnly P (.error e : Except ε α) := by
  intro e' he
  exact Except.error.inj he ▸ h

theorem FailsOnly.mono {x : Except ε α} (h : FailsOnly P x) (hPQ : ∀ e, P e → Q e) :
    FailsOnly Q x :=
  fun e he => hPQ e (h e he)

theorem FailsOnly.bind {x : Except ε α} {f : α → Except ε β} (hx : FailsOnly P x)
    (hf : ∀ a, x = .ok a → FailsOnly P (f a)) : FailsOnly P (x >>= f) := by
  cases x with
  | error e => exact failsOnly_error (hx e rfl)
  | ok a => exact hf a rfl

theorem FailsOnly.map {x : Except ε α} (h : FailsOnly P x) (f : α → β) :
    FailsOnly P (x.map f) := by
  cases x with
  | error e => exact failsOnly_error (h e rfl)
  | ok a => exact failsOnly_ok _

theorem FailsOnly.mapM {f : α → Except ε β} {as : List α} (h : ∀ a ∈ as, FailsOnly P (f a)) :
    FailsOnly P (as.mapM f) := by
  induction as with
  | nil => exact failsOnly_ok []
  | cons a as ih =>
    rw [List.mapM_cons]
    refine (h a (List.mem_cons_self ..)).bind fun b _ => ?_
    exact (ih fun c hc => h c (List.mem_cons_of_mem _ hc)).bind fun bs _ => failsOnly_ok _

end

namespace Timed

variable {ε α β : Type} {P : ε → Prop}

theorem failsOnly_bind {x : Timed ε α} {f : α → Timed ε β} (hx : FailsOnly P x.outcome)
    (hf : ∀ a, x.outcome = .ok a → FailsOnly P (f a).outcome) :
    FailsOnly P (x >>= f).outcome := by
  change FailsOnly P (Timed.bind x f).outcome
  unfold Timed.bind
  cases houtcome : x.outcome with
  | error e => exact failsOnly_error (hx e houtcome)
  | ok a => exact hf a houtcome

theorem failsOnly_map {x : Timed ε α} (f : α → β) (h : FailsOnly P x.outcome) :
    FailsOnly P (f <$> x).outcome :=
  failsOnly_bind h fun _ _ => failsOnly_ok _

theorem failsOnly_mapError {x : Timed ε α} {f : ε → ε} (h : FailsOnly P x.outcome)
    (hf : ∀ e, P e → P (f e)) : FailsOnly P (x.mapError f).outcome := by
  unfold mapError
  cases houtcome : x.outcome with
  | error e => exact failsOnly_error (hf e (h e houtcome))
  | ok a => exact failsOnly_ok a

theorem exists_of_firstFailure {place : Nat} {xs : List (Timed ε α)} {f : Failure ε}
    (h : firstFailure place xs = some f) : ∃ x ∈ xs, x.outcome = .error f.error := by
  induction xs generalizing place with
  | nil => cases h
  | cons x rest ih =>
    rw [firstFailure] at h
    cases hx : x.outcome with
    | ok a =>
      rw [hx] at h
      obtain ⟨y, hy, he⟩ := ih h
      exact ⟨y, List.mem_cons_of_mem _ hy, he⟩
    | error e =>
      rw [hx] at h
      cases hlater : firstFailure (place + 1) rest with
      | none =>
        rw [hlater] at h
        obtain rfl := Option.some.inj h
        exact ⟨x, List.mem_cons_self .., hx⟩
      | some later =>
        rw [hlater] at h
        dsimp only at h
        split_ifs at h
        · obtain rfl := Option.some.inj h
          obtain ⟨y, hy, he⟩ := ih hlater
          exact ⟨y, List.mem_cons_of_mem _ hy, he⟩
        · obtain rfl := Option.some.inj h
          exact ⟨x, List.mem_cons_self .., hx⟩

/-- The failure of computations started together is that of one of them. -/
theorem failsOnly_all {xs : List (Timed ε α)} (h : ∀ x ∈ xs, FailsOnly P x.outcome) :
    FailsOnly P (all xs).outcome := by
  unfold all
  cases hfirst : firstFailure 0 xs with
  | none => exact failsOnly_ok _
  | some f =>
    obtain ⟨x, hx, he⟩ := exists_of_firstFailure hfirst
    exact failsOnly_error (h x hx _ he)

end Timed

/-! ## Defects -/

section
variable {P : Fault → Prop} (hdefect : ∀ d, P (.defect d))
include hdefect

namespace Form

theorem failsOnly_fail {α : Type} (d : Defect) : FailsOnly P (fail d : Except Fault α) :=
  failsOnly_error (hdefect d)

theorem failsOnly_mapping (v : Value) : FailsOnly P (mapping v) := by
  cases v with
  | map ms => exact failsOnly_ok ms
  | _ => exact failsOnly_fail hdefect _

theorem failsOnly_optionalMapping (v : Option Value) : FailsOnly P (optionalMapping v) :=
  failsOnly_mapping hdefect _

theorem failsOnly_row (v : Value) : FailsOnly P (row v) := by
  unfold row
  split
  · exact failsOnly_ok _
  · exact failsOnly_ok _
  · exact failsOnly_ok _
  · exact failsOnly_fail hdefect _

theorem failsOnly_optionalRow (v : Option Value) : FailsOnly P (optionalRow v) :=
  failsOnly_row hdefect _

theorem failsOnly_key (v : Value) : FailsOnly P (key v) := by
  cases v with
  | atom a => exact failsOnly_ok a
  | _ => exact failsOnly_fail hdefect _

theorem failsOnly_holds (v : Value) (s : String) : FailsOnly P (holds v s) := by
  unfold holds
  split
  · exact failsOnly_ok _
  · exact failsOnly_fail hdefect _
  · exact failsOnly_ok _
  · exact failsOnly_ok _

theorem failsOnly_text (v : Value) : FailsOnly P (text v) := by
  unfold text
  split
  · exact failsOnly_ok _
  · exact failsOnly_fail hdefect _

theorem failsOnly_pascal (v : Value) : FailsOnly P (pascal v) := by
  unfold pascal
  split
  · exact failsOnly_ok _
  · split_ifs
    · exact failsOnly_fail hdefect _
    · exact failsOnly_ok _

theorem failsOnly_suffixed (name : String) (suffix : Value) : FailsOnly P (suffixed name suffix) :=
  (failsOnly_text hdefect suffix).bind fun _ _ => failsOnly_ok _

theorem failsOnly_sorted {α : Type} (keyOf : α → Atom) (as : List α) :
    FailsOnly P (sorted keyOf as) := by
  unfold sorted
  split_ifs
  · exact failsOnly_ok _
  · exact failsOnly_fail hdefect _

theorem failsOnly_sortedRow (v : Value) : FailsOnly P (sortedRow v) := by
  refine (failsOnly_row hdefect v).bind fun values _ => ?_
  split_ifs
  · exact failsOnly_sorted hdefect _ _
  · exact failsOnly_fail hdefect _

end Form

namespace Context

variable (ctx : Context)

theorem failsOnly_targetSchemas : FailsOnly P ctx.targetSchemas := by
  refine (Form.failsOnly_mapping hdefect _).bind fun ms _ => ?_
  exact (Form.failsOnly_optionalMapping hdefect _).bind fun components _ => failsOnly_ok _

theorem failsOnly_isDeclared (name : String) : FailsOnly P (ctx.isDeclared name) := by
  unfold isDeclared
  split_ifs
  · exact failsOnly_ok _
  · exact (failsOnly_targetSchemas hdefect ctx).bind fun v _ => Form.failsOnly_holds hdefect v name

theorem failsOnly_suffixFor (componentType : String) :
    FailsOnly P (ctx.suffixFor componentType) := by
  refine (Form.failsOnly_mapping hdefect _).bind fun ms _ => ?_
  refine (Form.failsOnly_optionalMapping hdefect _).bind fun components _ => ?_
  exact (Form.failsOnly_optionalMapping hdefect _).bind fun component _ => failsOnly_ok _

end Context
end

/-! ## The schemas in a schema -/

namespace Schema

mutual

/-- The schemas below a schema, at any depth. -/
def beneath : Schema → List Schema
  | composition _ _ parts => insideAll parts
  | array _ (some items) => items :: beneath items
  | object _ properties => insideProperties properties
  | record _ values => values :: beneath values
  | reference .. | array _ none | enum .. | primitive _ | openRecord _ | bare _ | malformed _ => []

/-- Some schemas and those below them. -/
def insideAll : List Schema → List Schema
  | [] => []
  | s :: rest => s :: beneath s ++ insideAll rest

def insideProperties : List (Atom × Schema) → List Schema
  | [] => []
  | (_, s) :: rest => s :: beneath s ++ insideProperties rest

end

/-- A schema and those below it. -/
def inside (s : Schema) : List Schema := s :: beneath s

/-- The reference that a schema is. -/
def ref? : Schema → Option String
  | reference _ ref => some ref
  | _ => none

/-- The references that a schema is made of. -/
def refs (s : Schema) : List String := s.inside.filterMap ref?

theorem mem_refs {s : Schema} {ref : String} :
    ref ∈ s.refs ↔ ∃ raw, .reference raw ref ∈ s.inside := by
  rw [refs, List.mem_filterMap]
  constructor
  · rintro ⟨t, ht, href⟩
    cases t with
    | reference raw own =>
      obtain rfl : own = ref := by simpa [ref?] using href
      exact ⟨raw, ht⟩
    | _ => cases href
  · rintro ⟨raw, ht⟩
    exact ⟨_, ht, rfl⟩

end Schema

namespace Resolve

variable {P : Fault → Prop}

/-! ## Names and members of objects -/

section
variable {ctx : Context}

theorem failsOnly_childName {key : Value} (hkey : FailsOnly P (Form.pascal key))
    (hdeclared : ∀ name, FailsOnly P (ctx.isDeclared name)) (parent : String) :
    FailsOnly P (childName ctx parent key) := by
  refine hkey.bind fun name _ => ?_
  exact (hdeclared _).bind fun isDeclared _ => failsOnly_ok _

theorem failsOnly_childNamesFrom {keys : List Value}
    (hkeys : ∀ key ∈ keys, FailsOnly P (Form.pascal key))
    (hdeclared : ∀ name, FailsOnly P (ctx.isDeclared name)) (parent : String)
    (used : List String) : FailsOnly P (childNamesFrom ctx parent used keys) := by
  induction keys generalizing used with
  | nil => exact failsOnly_ok []
  | cons key rest ih =>
    rw [List.forall_mem_cons] at hkeys
    rw [childNamesFrom]
    refine (failsOnly_childName hkeys.1 hdeclared parent).bind fun name _ => ?_
    exact (ih hkeys.2 _).bind fun names _ => failsOnly_ok _

/-- Names are made unless a key makes none or the names of the components cannot be read. -/
theorem failsOnly_childNames {keys : List Value}
    (hkeys : ∀ key ∈ keys, FailsOnly P (Form.pascal key))
    (hdeclared : ∀ name, FailsOnly P (ctx.isDeclared name)) (parent : Option String) :
    FailsOnly P (childNames ctx parent keys) := by
  unfold childNames
  split
  · exact failsOnly_ok _
  · exact (failsOnly_childNamesFrom hkeys hdeclared _ []).bind fun names _ => failsOnly_ok _

theorem failsOnly_membersOf {properties : List (Atom × Schema)}
    (hkeys : ∀ p ∈ properties, FailsOnly P (Form.text (.atom p.1))) (owner : Members)
    (types : List Resolved) : FailsOnly P (membersOf owner properties types) := by
  induction properties generalizing types with
  | nil =>
    rw [membersOf]
    · exact failsOnly_ok []
    · simp
  | cons p properties ih =>
    cases types with
    | nil =>
      rw [membersOf]
      · exact failsOnly_ok []
      · simp
    | cons r types =>
      rw [List.forall_mem_cons] at hkeys
      refine hkeys.1.bind fun key _ => ?_
      exact (ih hkeys.2 types).bind fun rest _ => failsOnly_ok _

theorem failsOnly_objectOf {properties : List (Atom × Schema)}
    (hkeys : ∀ p ∈ properties, FailsOnly P (Form.text (.atom p.1))) (owner : Members)
    (types : List Resolved) : FailsOnly P (objectOf owner properties types) :=
  (failsOnly_membersOf hkeys owner types).bind fun _ _ => failsOnly_ok _

end

/-! ## The types of schemas -/

variable {ctx : Context}

/-- What the type of a schema fails on, apart from the types of the schemas in it, is what `P` holds
of. -/
def FailsAlone (ctx : Context) (P : Fault → Prop) : Schema → Prop
  | .reference _ ref => FailsOnly P (reference ctx ref)
  | .malformed _ => P (.defect .notKey)
  | .object raw properties =>
    (∀ name, FailsOnly P (childNames ctx name (properties.map fun p => .atom p.1))) ∧
      ∀ types, FailsOnly P (objectOf raw properties types)
  | _ => True

mutual

/-- The type of a schema fails only on what the schemas in it fail on. -/
theorem failsOnly_shape : ∀ (s : Schema) (name : Option String),
    (∀ t ∈ s.inside, FailsAlone ctx P t) → FailsOnly P (shape ctx s name).outcome
  | .reference raw ref, name, h => by
    rw [shape]
    exact h _ (List.mem_cons_self ..)
  | .malformed raw, name, h => by
    rw [shape]
    exact failsOnly_error (h _ (List.mem_cons_self ..))
  | .primitive raw, name, h => by
    rw [shape]
    exact failsOnly_ok _
  | .enum raw values, name, h => by
    rw [shape]
    exact failsOnly_ok _
  | .bare raw, name, h => by
    rw [shape]
    exact failsOnly_ok _
  | .openRecord raw, name, h => by
    rw [shape]
    exact failsOnly_ok _
  | .array raw none, name, h => by
    rw [shape]
    exact failsOnly_ok _
  | .array raw (some items), name, h => by
    rw [shape]
    rw [Schema.inside, Schema.beneath, List.forall_mem_cons] at h
    exact Timed.failsOnly_bind (failsOnly_shape items _ h.2) fun _ _ => failsOnly_ok _
  | .record raw values, name, h => by
    rw [shape]
    rw [Schema.inside, Schema.beneath, List.forall_mem_cons] at h
    exact Timed.failsOnly_bind (failsOnly_shape values _ h.2) fun _ _ => failsOnly_ok _
  | .object raw properties, name, h => by
    rw [shape]
    rw [Schema.inside, Schema.beneath, List.forall_mem_cons] at h
    obtain ⟨⟨hnames, hobject⟩, hproperties⟩ := h
    refine Timed.failsOnly_bind (hnames _) fun names _ => ?_
    exact Timed.failsOnly_bind (Timed.failsOnly_all
      (failsOnly_members properties names hproperties)) fun types _ => hobject types
  | .composition raw keyword schemas, name, h => by
    rw [shape]
    rw [Schema.inside, Schema.beneath, List.forall_mem_cons] at h
    exact Timed.failsOnly_bind (failsOnly_parts schemas _ 0 h.2) fun _ _ => failsOnly_ok _

theorem failsOnly_members : ∀ (properties : List (Atom × Schema)) (names : List (Option String)),
    (∀ t ∈ Schema.insideProperties properties, FailsAlone ctx P t) →
    ∀ x ∈ members ctx properties names, FailsOnly P x.outcome
  | [], names, h => by simp [members]
  | _ :: _, [], h => by simp [members]
  | (key, s) :: properties, name :: names, h => by
    rw [Schema.insideProperties, List.forall_mem_append] at h
    rw [members, List.forall_mem_cons]
    exact ⟨Timed.failsOnly_map _ (failsOnly_shape s _ h.1),
      failsOnly_members properties names h.2⟩

theorem failsOnly_parts : ∀ (schemas : List Schema) (name : Option String) (count : Nat),
    (∀ t ∈ Schema.insideAll schemas, FailsAlone ctx P t) →
    FailsOnly P (parts ctx name count schemas).outcome
  | [], name, count, h => by
    rw [parts]
    exact failsOnly_ok _
  | s :: schemas, name, count, h => by
    rw [Schema.insideAll, List.forall_mem_append] at h
    rw [parts]
    refine Timed.failsOnly_bind (failsOnly_shape s _ h.1) fun r _ => ?_
    exact Timed.failsOnly_bind (failsOnly_parts schemas name _ h.2) fun _ _ => failsOnly_ok _

end

theorem failsOnly_value {s : Schema} (h : ∀ t ∈ s.inside, FailsAlone ctx P t)
    (name : Option String) : FailsOnly P (value ctx s name).outcome :=
  Timed.failsOnly_map _ (failsOnly_shape s _ h)

theorem failsOnly_slot {s : Schema} (h : ∀ t ∈ s.inside, FailsAlone ctx P t)
    (name : Option String) (combined : Bool) : FailsOnly P (slot ctx s name combined).outcome :=
  Timed.failsOnly_map _ (failsOnly_value h name)

/-- If `P` holds of all defects, only references can fail otherwise. -/
theorem failsAlone_of_refs (hdefect : ∀ d, P (.defect d)) {s : Schema}
    (h : ∀ ref ∈ s.refs, FailsOnly P (reference ctx ref)) : ∀ t ∈ s.inside, FailsAlone ctx P t := by
  intro t ht
  cases t with
  | reference raw ref => exact h ref (Schema.mem_refs.2 ⟨raw, ht⟩)
  | malformed raw => exact hdefect _
  | object raw properties =>
    exact ⟨failsOnly_childNames (fun _ _ => Form.failsOnly_pascal hdefect _)
      (ctx.failsOnly_isDeclared hdefect),
      failsOnly_objectOf (fun _ _ => Form.failsOnly_text hdefect _) raw⟩
  | _ => trivial

end Resolve
end ApiTypes

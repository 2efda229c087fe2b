import ApiTypes.Resolve
import ApiTypes.Proofs.Outcome

/-!
# Induction over the types of schemas

* `MemberTypes`, `PartTypes` : the types of the members of an object and of the parts of a
  composition, made of types of their schemas;
* `ShapeLaws ctx P` : `P` holds of the types without parts and is kept by each way to make a type of
  others;
* `ShapeLaws.shape` : such a `P` holds of the type of every schema;
* `outcomeLaws` : the rules make nothing else;
* `built_of_shape` : the type of one schema from the types of its parts.

What a schema's type is like is proved from `ShapeLaws` alone: the timed computations are opened
here and nowhere else.
-/

namespace ApiTypes.Resolve

/-! ## Names of members -/

/-- The name of a member is that of its parent's name with that of its key, and with one more word
where a component has it. -/
theorem childName_ok {ctx : Context} {parent name : String} {key : Value}
    (h : childName ctx parent key = .ok name) :
    ∃ child, Form.pascal key = .ok child ∧
      (name = Name.pascal parent ++ child ∨ name = Name.pascal parent ++ child ++ "Property") := by
  unfold childName at h
  obtain ⟨child, hchild, h⟩ := Except.bind_eq_ok.1 h
  obtain ⟨isDeclared, -, h⟩ := Except.bind_eq_ok.1 h
  simp only [pure, Except.pure, Except.ok.injEq] at h
  subst h
  split
  · exact ⟨child, hchild, .inr rfl⟩
  · exact ⟨child, hchild, .inl rfl⟩

theorem childNamesFrom_length {ctx : Context} {parent : String} {used : List String}
    {keys : List Value} {names : List String}
    (h : childNamesFrom ctx parent used keys = .ok names) :
    names.length = keys.length := by
  induction keys generalizing used names with
  | nil =>
    obtain rfl : [] = names := by simpa [childNamesFrom] using h
    rfl
  | cons key rest ih =>
    rw [childNamesFrom] at h
    obtain ⟨child, -, h⟩ := Except.bind_eq_ok.1 h
    obtain ⟨later, hlater, h⟩ := Except.bind_eq_ok.1 h
    obtain rfl : freeName used child :: later = names := by simpa [pure, Except.pure] using h
    simp [ih hlater]

theorem childNames_length {ctx : Context} {parent : Option String} {keys : List Value}
    {names : List (Option String)} (h : childNames ctx parent keys = .ok names) :
    names.length = keys.length := by
  unfold childNames at h
  split at h
  · obtain rfl : (keys.map fun _ => none) = names := by simpa using h
    simp
  · obtain ⟨texts, htexts, h⟩ := Except.bind_eq_ok.1 h
    obtain rfl : texts.map some = names := by simpa [pure, Except.pure] using h
    simp [childNamesFrom_length htexts]

/-! ## Types made of others -/

/-- Enums alone, under a name, are merged, whatever the keyword. -/
theorem combine_eq_mergedEnum (keyword : Keyword) (name : String) {types : List Resolved}
    (hlength : 1 < types.length) (henums : types.all (·.isEnum) = true) :
    combine keyword (some name) types = mergedEnum name types := by
  unfold combine
  split
  · simp at hlength
  · exact if_pos ⟨hlength, henums⟩

/-- The types of the properties of an object under their names, of whose schemas `P` holds. -/
inductive MemberTypes (P : Schema → Option String → Resolved → Prop) :
    List (Atom × Schema) → List (Option String) → List Resolved → Prop
  | nil : MemberTypes P [] [] []
  | cons {key : Atom} {s : Schema} {name : Option String} {r : Resolved}
      {properties : List (Atom × Schema)} {names : List (Option String)} {types : List Resolved} :
      P s (givenName name) r → MemberTypes P properties names types →
      MemberTypes P ((key, s) :: properties) (name :: names)
        (hoist (givenName name) false (finish s r) :: types)

/-- The number of parts with declarations of their own after one more part. -/
def nextCount (count : Nat) (r : Resolved) : Nat :=
  if r.declarations.isEmpty then count else count + 1

/-- The types of the parts of a composition under a name, of whose schemas `P` holds; `count` of
those before them have declarations. -/
inductive PartTypes (P : Schema → Option String → Resolved → Prop) (name : Option String) :
    Nat → List Schema → List Resolved → Prop
  | nil {count : Nat} : PartTypes P name count [] []
  | cons {count : Nat} {s : Schema} {r : Resolved} {schemas : List Schema}
      {types : List Resolved} :
      P s (numbered name count) r →
      PartTypes P name (nextCount count (hoist (numbered name count) true (finish s r))) schemas
        types →
      PartTypes P name count (s :: schemas)
        (hoist (numbered name count) true (finish s r) :: types)

theorem MemberTypes.imp {P Q : Schema → Option String → Resolved → Prop}
    (hPQ : ∀ s name r, P s name r → Q s name r) {properties : List (Atom × Schema)}
    {names : List (Option String)} {types : List Resolved}
    (h : MemberTypes P properties names types) : MemberTypes Q properties names types := by
  induction h with
  | nil => exact .nil
  | cons hr _ ih => exact .cons (hPQ _ _ _ hr) ih

theorem PartTypes.imp {P Q : Schema → Option String → Resolved → Prop}
    (hPQ : ∀ s name r, P s name r → Q s name r) {name : Option String} {count : Nat}
    {schemas : List Schema} {types : List Resolved} (h : PartTypes P name count schemas types) :
    PartTypes Q name count schemas types := by
  induction h with
  | nil => exact .nil
  | cons hr _ ih => exact .cons (hPQ _ _ _ hr) ih

/-- What slots keep holds of the types of all members. -/
theorem MemberTypes.forall_mem {Q : Resolved → Prop}
    (hslot : ∀ s name combined r, Q r → Q (hoist name combined (finish s r)))
    {properties : List (Atom × Schema)} {names : List (Option String)} {types : List Resolved}
    (h : MemberTypes (fun _ _ => Q) properties names types) : ∀ r ∈ types, Q r := by
  induction h with
  | nil => simp
  | cons hr _ ih => exact List.forall_mem_cons.2 ⟨hslot _ _ _ _ hr, ih⟩

/-- What slots keep holds of the types of all parts. -/
theorem PartTypes.forall_mem {Q : Resolved → Prop}
    (hslot : ∀ s name combined r, Q r → Q (hoist name combined (finish s r)))
    {name : Option String} {count : Nat} {schemas : List Schema} {types : List Resolved}
    (h : PartTypes (fun _ _ => Q) name count schemas types) : ∀ r ∈ types, Q r := by
  induction h with
  | nil => simp
  | cons hr _ ih => exact List.forall_mem_cons.2 ⟨hslot _ _ _ _ hr, ih⟩

theorem PartTypes.length_eq {P : Schema → Option String → Resolved → Prop} {name : Option String}
    {count : Nat} {schemas : List Schema} {types : List Resolved}
    (h : PartTypes P name count schemas types) : types.length = schemas.length := by
  induction h with
  | nil => rfl
  | cons _ _ ih => rw [List.length_cons, List.length_cons, ih]

/-- The first parts of a composition. -/
theorem PartTypes.take {P : Schema → Option String → Resolved → Prop} {name : Option String}
    {count : Nat} {schemas : List Schema} {types : List Resolved}
    (h : PartTypes P name count schemas types) (i : Nat) :
    PartTypes P name count (schemas.take i) (types.take i) := by
  induction h generalizing i with
  | nil =>
    rw [List.take_nil, List.take_nil]
    exact .nil
  | cons hr _ ih =>
    cases i with
    | zero => exact .nil
    | succ i => exact .cons hr (ih i)

/-- `P` holds of the types without parts and is kept by each way to make a type of others. -/
structure ShapeLaws (ctx : Context) (P : Schema → Option String → Resolved → Prop) : Prop where
  reference : ∀ raw ref name r, Resolve.reference ctx ref = .ok r → P (.reference raw ref) name r
  primitive : ∀ raw name, P (.primitive raw) name (Resolve.primitive raw)
  enum : ∀ raw values name, P (.enum raw values) name (Resolve.enum raw values)
  bare : ∀ raw name, P (.bare raw) name (Resolve.bare raw)
  openRecord : ∀ raw name,
    P (.openRecord raw) name { Resolved.plain .openRecord "object" with raw }
  anyArray : ∀ raw name,
    P (.array raw none) name (Resolved.plain (.array (.builtin .unknown)) "array")
  array : ∀ raw items name r, P items (itemName name) r →
    P (.array raw (some items)) name (arrayOf (hoist (itemName name) false (finish items r)))
  record : ∀ raw values name r, P values name r →
    P (.record raw values) name { recordOf (finish values r) with raw }
  object : ∀ raw properties name names types r,
    childNames ctx name (properties.map fun p => .atom p.1) = .ok names →
    MemberTypes P properties names types → objectOf raw properties types = .ok r →
    P (.object raw properties) name r
  composition : ∀ raw keyword schemas name types,
    PartTypes P (partName name keyword) 0 schemas types →
    P (.composition raw keyword schemas) name (combine keyword name types)

namespace ShapeLaws

variable {ctx : Context} {P : Schema → Option String → Resolved → Prop}

mutual

/-- A property that is kept holds of the type of every schema. -/
theorem shape (laws : ShapeLaws ctx P) : ∀ (s : Schema) (name : Option String) (r : Resolved),
    (Resolve.shape ctx s name).outcome = .ok r → P s name r
  | .reference raw ref, name, r, h => by
    rw [Resolve.shape] at h
    exact laws.reference raw ref name r h
  | .malformed raw, name, r, h => by
    rw [Resolve.shape] at h
    simp [Form.fail] at h
  | .primitive raw, name, r, h => by
    rw [Resolve.shape] at h
    obtain rfl : Resolve.primitive raw = r := by simpa using h
    exact laws.primitive raw name
  | .enum raw values, name, r, h => by
    rw [Resolve.shape] at h
    obtain rfl : Resolve.enum raw values = r := by simpa using h
    exact laws.enum raw values name
  | .bare raw, name, r, h => by
    rw [Resolve.shape] at h
    obtain rfl : Resolve.bare raw = r := by simpa using h
    exact laws.bare raw name
  | .openRecord raw, name, r, h => by
    rw [Resolve.shape] at h
    obtain rfl : { Resolved.plain .openRecord "object" with raw } = r := by simpa using h
    exact laws.openRecord raw name
  | .array raw none, name, r, h => by
    rw [Resolve.shape] at h
    obtain rfl : Resolved.plain (.array (.builtin .unknown)) "array" = r := by simpa using h
    exact laws.anyArray raw name
  | .array raw (some items), name, r, h => by
    rw [Resolve.shape] at h
    obtain ⟨q, hq, h⟩ := Timed.outcome_bind_ok.1 h
    obtain rfl : arrayOf (hoist (itemName name) false (finish items q)) = r := by simpa using h
    exact laws.array raw items name q (shape laws items (itemName name) q hq)
  | .record raw values, name, r, h => by
    rw [Resolve.shape] at h
    obtain ⟨q, hq, h⟩ := Timed.outcome_bind_ok.1 h
    obtain rfl : { recordOf (finish values q) with raw } = r := by simpa using h
    exact laws.record raw values name q (shape laws values name q hq)
  | .object raw properties, name, r, h => by
    rw [Resolve.shape] at h
    obtain ⟨names, hnames, h⟩ := Timed.outcome_bind_ok.1 h
    obtain ⟨types, htypes, h⟩ := Timed.outcome_bind_ok.1 h
    have hlength : names.length = properties.length := by
      simpa using childNames_length hnames
    exact laws.object raw properties name names types r hnames
      (members laws properties names types hlength (Timed.outcome_all_ok.1 htypes)) h
  | .composition raw keyword schemas, name, r, h => by
    rw [Resolve.shape] at h
    obtain ⟨types, htypes, h⟩ := Timed.outcome_bind_ok.1 h
    obtain rfl : combine keyword name types = r := by simpa using h
    exact laws.composition raw keyword schemas name types
      (parts laws schemas (partName name keyword) 0 types htypes)

theorem members (laws : ShapeLaws ctx P) : ∀ (properties : List (Atom × Schema))
    (names : List (Option String)) (types : List Resolved), names.length = properties.length →
    List.Forall₂ (fun x a => x.outcome = .ok a) (Resolve.members ctx properties names) types →
    MemberTypes P properties names types
  | [], [], types, _, h => by
    rw [Resolve.members] at h
    · cases h
      exact .nil
    · simp
  | [], _ :: _, _, hlength, _ => by simp at hlength
  | _ :: _, [], _, hlength, _ => by simp at hlength
  | (key, s) :: properties, name :: names, types, hlength, h => by
    rw [Resolve.members] at h
    cases h with
    | cons hhead htail =>
      obtain ⟨q, hq, rfl⟩ := Timed.outcome_map_ok.1 hhead
      exact .cons (shape laws s (givenName name) q hq)
        (members laws properties names _ (by simpa using hlength) htail)

theorem parts (laws : ShapeLaws ctx P) : ∀ (schemas : List Schema) (name : Option String)
    (count : Nat) (types : List Resolved),
    (Resolve.parts ctx name count schemas).outcome = .ok types →
    PartTypes P name count schemas types
  | [], name, count, types, h => by
    rw [Resolve.parts] at h
    obtain rfl : [] = types := by simpa using h
    exact .nil
  | s :: schemas, name, count, types, h => by
    rw [Resolve.parts] at h
    obtain ⟨q, hq, h⟩ := Timed.outcome_bind_ok.1 h
    obtain ⟨rest, hrest, h⟩ := Timed.outcome_bind_ok.1 h
    obtain rfl : _ :: rest = types := by simpa using h
    exact .cons (shape laws s (numbered name count) q hq) (parts laws schemas name _ rest hrest)

end

end ShapeLaws

/-! ## The rules are complete -/

theorem members_of_memberTypes {ctx : Context} {properties : List (Atom × Schema)}
    {names : List (Option String)} {types : List Resolved}
    (h : MemberTypes (fun s name r => (shape ctx s name).outcome = .ok r) properties names types) :
    List.Forall₂ (fun x a => x.outcome = .ok a) (members ctx properties names) types := by
  induction h with
  | nil =>
    rw [members]
    · exact .nil
    · simp
  | cons hr _ ih =>
    rw [members]
    exact .cons (Timed.outcome_map_ok.2 ⟨_, hr, rfl⟩) ih

theorem parts_of_partTypes {ctx : Context} {name : Option String} {count : Nat}
    {schemas : List Schema} {types : List Resolved}
    (h : PartTypes (fun s name r => (shape ctx s name).outcome = .ok r) name count schemas types) :
    (parts ctx name count schemas).outcome = .ok types := by
  induction h with
  | nil =>
    rw [parts]
    rfl
  | cons hr _ ih =>
    rw [parts]
    exact Timed.outcome_bind_ok.2 ⟨_, hr, Timed.outcome_bind_ok.2 ⟨_, ih, rfl⟩⟩

/-- What the rules make is the type of the schema. -/
theorem outcomeLaws (ctx : Context) :
    ShapeLaws ctx fun s name r => (shape ctx s name).outcome = .ok r where
  reference raw ref name r h := by rw [shape]; exact h
  primitive raw name := by rw [shape]; rfl
  enum raw values name := by rw [shape]; rfl
  bare raw name := by rw [shape]; rfl
  openRecord raw name := by rw [shape]; rfl
  anyArray raw name := by rw [shape]; rfl
  array raw items name r h := by
    rw [shape]
    exact Timed.outcome_bind_ok.2 ⟨r, h, rfl⟩
  record raw values name r h := by
    rw [shape]
    exact Timed.outcome_bind_ok.2 ⟨r, h, rfl⟩
  object raw properties name names types r hnames htypes h := by
    rw [shape]
    refine Timed.outcome_bind_ok.2 ⟨names, hnames, Timed.outcome_bind_ok.2 ⟨types, ?_, h⟩⟩
    exact Timed.outcome_all_ok.2 (members_of_memberTypes htypes)
  composition raw keyword schemas name types h := by
    rw [shape]
    exact Timed.outcome_bind_ok.2 ⟨types, parts_of_partTypes h, rfl⟩

/-! ## One schema -/

/-- How the type of a schema is made of the types of its parts. -/
inductive Built (ctx : Context) : Schema → Option String → Resolved → Prop
  | reference {raw : Members} {ref : String} {name : Option String} {r : Resolved} :
      Resolve.reference ctx ref = .ok r → Built ctx (.reference raw ref) name r
  | primitive (raw : Members) (name : Option String) :
      Built ctx (.primitive raw) name (Resolve.primitive raw)
  | enum (raw : Members) (values : List Value) (name : Option String) :
      Built ctx (.enum raw values) name (Resolve.enum raw values)
  | bare (raw : Members) (name : Option String) : Built ctx (.bare raw) name (Resolve.bare raw)
  | openRecord (raw : Members) (name : Option String) :
      Built ctx (.openRecord raw) name { Resolved.plain .openRecord "object" with raw }
  | anyArray (raw : Members) (name : Option String) :
      Built ctx (.array raw none) name (Resolved.plain (.array (.builtin .unknown)) "array")
  | array {raw : Members} {items : Schema} {name : Option String} {r : Resolved} :
      (shape ctx items (itemName name)).outcome = .ok r →
      Built ctx (.array raw (some items)) name
        (arrayOf (hoist (itemName name) false (finish items r)))
  | record {raw : Members} {values : Schema} {name : Option String} {r : Resolved} :
      (shape ctx values name).outcome = .ok r →
      Built ctx (.record raw values) name { recordOf (finish values r) with raw }
  | object {raw : Members} {properties : List (Atom × Schema)} {name : Option String}
      {names : List (Option String)} {types : List Resolved} {r : Resolved} :
      childNames ctx name (properties.map fun p => .atom p.1) = .ok names →
      MemberTypes (fun s name r => (shape ctx s name).outcome = .ok r) properties names types →
      objectOf raw properties types = .ok r → Built ctx (.object raw properties) name r
  | composition {raw : Members} {keyword : Keyword} {schemas : List Schema}
      {name : Option String} {types : List Resolved} :
      PartTypes (fun s name r => (shape ctx s name).outcome = .ok r) (partName name keyword) 0
        schemas types →
      Built ctx (.composition raw keyword schemas) name (combine keyword name types)

theorem built_of_shape {ctx : Context} {s : Schema} {name : Option String} {r : Resolved}
    (h : (shape ctx s name).outcome = .ok r) : Built ctx s name r := by
  have hforget : ∀ s name r, (shape ctx s name).outcome = .ok r ∧ Built ctx s name r →
      (shape ctx s name).outcome = .ok r := fun _ _ _ h => h.1
  let laws := outcomeLaws ctx
  refine (ShapeLaws.shape (P := fun s name r => (shape ctx s name).outcome = .ok r ∧
    Built ctx s name r) ?_ s name r h).2
  exact {
    reference := fun raw ref name r h => ⟨laws.reference raw ref name r h, .reference h⟩
    primitive := fun raw name => ⟨laws.primitive raw name, .primitive raw name⟩
    enum := fun raw values name => ⟨laws.enum raw values name, .enum raw values name⟩
    bare := fun raw name => ⟨laws.bare raw name, .bare raw name⟩
    openRecord := fun raw name => ⟨laws.openRecord raw name, .openRecord raw name⟩
    anyArray := fun raw name => ⟨laws.anyArray raw name, .anyArray raw name⟩
    array := fun raw items name r h => ⟨laws.array raw items name r h.1, .array h.1⟩
    record := fun raw values name r h => ⟨laws.record raw values name r h.1, .record h.1⟩
    object := fun raw properties name names types r hnames htypes h =>
      ⟨laws.object raw properties name names types r hnames (htypes.imp hforget) h,
        .object hnames (htypes.imp hforget) h⟩
    composition := fun raw keyword schemas name types h =>
      ⟨laws.composition raw keyword schemas name types (h.imp hforget),
        .composition (h.imp hforget)⟩ }

/-! ## Schemas in their places -/

theorem value_ok {ctx : Context} {s : Schema} {name : Option String} {r : Resolved} :
    (value ctx s name).outcome = .ok r ↔
      ∃ q, (shape ctx s (givenName name)).outcome = .ok q ∧ finish s q = r :=
  Timed.outcome_map_ok

theorem slot_ok {ctx : Context} {s : Schema} {name : Option String} {combined : Bool}
    {r : Resolved} :
    (slot ctx s name combined).outcome = .ok r ↔
      ∃ q, (value ctx s name).outcome = .ok q ∧ hoist (givenName name) combined q = r :=
  Timed.outcome_map_ok

end ApiTypes.Resolve

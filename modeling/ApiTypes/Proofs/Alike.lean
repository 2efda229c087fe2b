import ApiTypes.Proofs.Agreement
import ApiTypes.Proofs.Failures

/-!
# Schemas that say the same

* `Members.SaySame` : two mappings say the same about themselves as schemas;
* `Schema.Alike` : two schemas are of one shape, and their mappings say the same throughout;
* `Resolved.Alike` : two types are the same, and so are the readings of their mappings;
* `Resolve.shape_agree` : the types of such schemas agree, in contexts where their references do and
  members get the same names.
-/

namespace ApiTypes

/-! ## Mappings -/

/-- Two mappings say the same about themselves as schemas, apart from the schemas in them. -/
structure Members.SaySame (raw raw' : Members) : Prop where
  ref : Schema.refOf? raw = Schema.refOf? raw'
  typeName : Schema.typeNameOf? raw = Schema.typeNameOf? raw'
  oddType : Schema.hasOddType raw = Schema.hasOddType raw'
  format : (raw.field? "format").bind Value.text? = (raw'.field? "format").bind Value.text?
  nullable : Value.flag raw "nullable" = Value.flag raw' "nullable"
  readOnly : Value.flag raw "readOnly" = Value.flag raw' "readOnly"
  required : Schema.requiredOf raw = Schema.requiredOf raw'
  values : Schema.enumOf? raw = Schema.enumOf? raw'
  description : raw.field? "description" = raw'.field? "description"
  summary : raw.field? "summary" = raw'.field? "summary"
  deprecated : Value.flag raw "deprecated" = Value.flag raw' "deprecated"

theorem Members.SaySame.refl (raw : Members) : SaySame raw raw :=
  ⟨rfl, rfl, rfl, rfl, rfl, rfl, rfl, rfl, rfl, rfl, rfl⟩

namespace Comment

theorem isSome_given (v : Option Value) : (given v).isSome = v.any Value.isTrue := by
  cases v with
  | none => rfl
  | some w => cases h : w.isTrue <;> simp [given, Option.filter, h]

theorem make?_congr {description deprecated deprecated' summary : Option Value}
    (h : deprecated.any Value.isTrue = deprecated'.any Value.isTrue) :
    make? description deprecated summary = make? description deprecated' summary := by
  unfold make?
  rw [isSome_given, isSome_given, h]

theorem ofMembers?_congr {raw raw' : Members} (h : raw.SaySame raw') :
    ofMembers? raw = ofMembers? raw' := by
  unfold ofMembers?
  rw [h.description, h.summary, make?_congr h.deprecated]

end Comment

/-! ## Schemas -/

mutual

/-- Two schemas of one shape whose mappings say the same. -/
inductive Schema.Alike : Schema → Schema → Prop
  | reference {raw raw' : Members} (ref : String) (h : raw.SaySame raw') :
    Alike (.reference raw ref) (.reference raw' ref)
  | composition {raw raw' : Members} {keyword : Keyword} {parts parts' : List Schema}
      (h : raw.SaySame raw') (hparts : Schema.AllAlike parts parts') :
    Alike (.composition raw keyword parts) (.composition raw' keyword parts')
  | anyArray {raw raw' : Members} (h : raw.SaySame raw') :
    Alike (.array raw none) (.array raw' none)
  | array {raw raw' : Members} {items items' : Schema} (h : raw.SaySame raw')
      (hitems : Schema.Alike items items') :
    Alike (.array raw (some items)) (.array raw' (some items'))
  | enum {raw raw' : Members} {values : List Value} (h : raw.SaySame raw') :
    Alike (.enum raw values) (.enum raw' values)
  | primitive {raw raw' : Members} (h : raw.SaySame raw') : Alike (.primitive raw) (.primitive raw')
  | object {raw raw' : Members} {properties properties' : List (Atom × Schema)}
      (h : raw.SaySame raw') (hproperties : Schema.PropertiesAlike properties properties') :
    Alike (.object raw properties) (.object raw' properties')
  | record {raw raw' : Members} {values values' : Schema} (h : raw.SaySame raw')
      (hvalues : Schema.Alike values values') : Alike (.record raw values) (.record raw' values')
  | openRecord {raw raw' : Members} (h : raw.SaySame raw') :
    Alike (.openRecord raw) (.openRecord raw')
  | bare {raw raw' : Members} (h : raw.SaySame raw') : Alike (.bare raw) (.bare raw')
  | malformed {raw raw' : Members} (h : raw.SaySame raw') : Alike (.malformed raw) (.malformed raw')

inductive Schema.AllAlike : List Schema → List Schema → Prop
  | nil : AllAlike [] []
  | cons {s s' : Schema} {rest rest' : List Schema} (h : Schema.Alike s s')
      (hrest : Schema.AllAlike rest rest') : AllAlike (s :: rest) (s' :: rest')

inductive Schema.PropertiesAlike : List (Atom × Schema) → List (Atom × Schema) → Prop
  | nil : PropertiesAlike [] []
  | cons {key : Atom} {s s' : Schema} {rest rest' : List (Atom × Schema)} (h : Schema.Alike s s')
      (hrest : Schema.PropertiesAlike rest rest') :
    PropertiesAlike ((key, s) :: rest) ((key, s') :: rest')

end

namespace Schema

mutual

theorem Alike.refl : ∀ s, Alike s s
  | .reference raw ref => .reference ref (.refl raw)
  | .composition raw _ parts => .composition (.refl raw) (AllAlike.refl parts)
  | .array raw none => .anyArray (.refl raw)
  | .array raw (some items) => .array (.refl raw) (Alike.refl items)
  | .enum raw _ => .enum (.refl raw)
  | .primitive raw => .primitive (.refl raw)
  | .object raw properties => .object (.refl raw) (PropertiesAlike.refl properties)
  | .record raw values => .record (.refl raw) (Alike.refl values)
  | .openRecord raw => .openRecord (.refl raw)
  | .bare raw => .bare (.refl raw)
  | .malformed raw => .malformed (.refl raw)

theorem AllAlike.refl : ∀ ss, AllAlike ss ss
  | [] => .nil
  | s :: rest => .cons (Alike.refl s) (AllAlike.refl rest)

theorem PropertiesAlike.refl : ∀ properties, PropertiesAlike properties properties
  | [] => .nil
  | (_, s) :: rest => .cons (Alike.refl s) (PropertiesAlike.refl rest)

end

theorem Alike.raw {s s' : Schema} (h : Alike s s') : s.raw.SaySame s'.raw := by
  cases h <;> assumption

theorem PropertiesAlike.keys_eq {properties properties' : List (Atom × Schema)}
    (h : PropertiesAlike properties properties') :
    properties.map Prod.fst = properties'.map Prod.fst := by
  induction properties generalizing properties' with
  | nil =>
    cases h
    rfl
  | cons p rest ih =>
    cases h with
    | cons _ hrest => rw [List.map_cons, List.map_cons, ih hrest]

theorem AllAlike.append {ss ss' ts ts' : List Schema} (hs : AllAlike ss ss')
    (ht : AllAlike ts ts') : AllAlike (ss ++ ts) (ss' ++ ts') := by
  induction ss generalizing ss' with
  | nil =>
    cases hs
    exact ht
  | cons s rest ih =>
    cases hs with
    | cons hs hrest => exact .cons hs (ih hrest)

end Schema

/-! ## Types -/

/-- The same type twice, read from mappings that say the same. -/
def Resolved.Alike (r r' : Resolved) : Prop :=
  ∃ raw, r.raw.SaySame raw ∧ r' = { r with raw }

namespace Resolved

variable {r r' : Resolved}

theorem Alike.refl (r : Resolved) : Alike r r := ⟨r.raw, .refl _, rfl⟩

theorem Alike.type_eq (h : Alike r r') : r.type = r'.type := by
  obtain ⟨raw, -, rfl⟩ := h
  rfl

theorem Alike.withRaw (h : Alike r r') {raw raw' : Members} (hraw : raw.SaySame raw') :
    Alike { r with raw } { r' with raw := raw' } := by
  obtain ⟨_, -, rfl⟩ := h
  exact ⟨raw', hraw, rfl⟩

theorem Alike.withNull (h : Alike r r') : Alike r.withNull r'.withNull := by
  obtain ⟨raw, hraw, rfl⟩ := h
  unfold Resolved.withNull
  split_ifs
  · exact ⟨raw, hraw, rfl⟩
  · exact ⟨raw, hraw, rfl⟩

theorem Alike.ofSchema (h : Alike r r') {raw raw' : Members} (hraw : raw.SaySame raw') :
    Alike (r.ofSchema raw) (r'.ofSchema raw') := by
  unfold Resolved.ofSchema
  rw [hraw.nullable]
  split_ifs
  · obtain ⟨_, -, heq⟩ := h.withNull
    exact ⟨raw', hraw, by rw [heq]⟩
  · obtain ⟨_, -, rfl⟩ := h
    exact ⟨raw', hraw, rfl⟩

end Resolved

namespace Resolve

theorem finish_alike {s s' : Schema} {r r' : Resolved} (hs : s.Alike s') (hr : r.Alike r') :
    (finish s r).Alike (finish s' r') := by
  cases hs with
  | reference ref h => exact hr
  | _ => exact hr.ofSchema ‹_›

theorem hoist_alike {r r' : Resolved} (h : r.Alike r') (name : Option String) (combined : Bool) :
    (hoist name combined r).Alike (hoist name combined r') := by
  obtain ⟨raw, hraw, rfl⟩ := h
  cases name with
  | none => exact ⟨raw, hraw, rfl⟩
  | some n =>
    unfold Resolve.hoist
    dsimp only
    rw [Comment.ofMembers?_congr hraw, hraw.values]
    split_ifs
    · exact ⟨raw, hraw, rfl⟩
    · exact ⟨raw, hraw, rfl⟩
    · exact ⟨raw, hraw, rfl⟩
    · exact ⟨raw, hraw, rfl⟩

theorem arrayOf_alike {r r' : Resolved} (h : r.Alike r') : (arrayOf r).Alike (arrayOf r') := by
  obtain ⟨raw, -, rfl⟩ := h
  exact .refl _

theorem recordOf_alike {r r' : Resolved} (h : r.Alike r') : (recordOf r).Alike (recordOf r') := by
  obtain ⟨raw, -, rfl⟩ := h
  exact .refl _

theorem primitive_alike {raw raw' : Members} (h : raw.SaySame raw') :
    (primitive raw).Alike (primitive raw') := by
  unfold primitive
  rw [h.typeName, h.format]
  exact .refl _

theorem enum_alike {raw raw' : Members} (h : raw.SaySame raw') (values : List Value) :
    (enum raw values).Alike (enum raw' values) := by
  unfold enum
  rw [h.typeName]
  exact .refl _

theorem bare_alike {raw raw' : Members} (h : raw.SaySame raw') : (bare raw).Alike (bare raw') := by
  unfold bare
  rw [h.typeName]
  exact (Resolved.Alike.refl (.plain _ _)).withRaw h

section
variable {rs rs' : List Resolved} (h : List.Forall₂ Resolved.Alike rs rs')
include h

/-- What does not read the mappings of types is the same. -/
theorem map_alike {α : Type} {f : Resolved → α} (hf : ∀ r r', r.Alike r' → f r = f r') :
    rs.map f = rs'.map f := by
  induction h with
  | nil => rfl
  | cons hr _ ih => rw [List.map_cons, List.map_cons, hf _ _ hr, ih]

theorem importsOf_alike : importsOf rs = importsOf rs' := by
  rw [importsOf, importsOf, List.flatMap_def, List.flatMap_def,
    map_alike h fun r r' ⟨raw, _, hr⟩ => by rw [hr]]

theorem declarationsOf_alike : declarationsOf rs = declarationsOf rs' := by
  rw [declarationsOf, declarationsOf, List.flatMap_def, List.flatMap_def,
    map_alike h fun r r' ⟨raw, _, hr⟩ => by rw [hr]]

theorem combine_alike (keyword : Keyword) (name : Option String) :
    (combine keyword name rs).Alike (combine keyword name rs') := by
  have himports := importsOf_alike h
  have hdeclarations := declarationsOf_alike h
  have hoperands : rs.map (operand keyword) = rs'.map (operand keyword) :=
    map_alike h fun r r' ⟨raw, _, hr⟩ => by rw [hr]; rfl
  have hparts : rs.map enumPart = rs'.map enumPart := by
    refine map_alike h fun r r' hr => ?_
    obtain ⟨raw, hraw, rfl⟩ := hr
    unfold enumPart
    rw [hraw.values]
  have henums : rs.all (·.isEnum) = rs'.all (·.isEnum) := by
    have hflags : rs.map (·.isEnum) = rs'.map (·.isEnum) :=
      map_alike h fun r r' ⟨raw, _, hr⟩ => by rw [hr]
    simpa [List.all_map] using congrArg (·.all id) hflags
  cases h with
  | nil => exact .refl _
  | cons hr hrest =>
    have hlength := (List.Forall₂.cons hr hrest).length_eq
    unfold combine combine.joined mergedEnum
    rw [himports, hdeclarations, hoperands, hparts, henums, hlength]
    exact .refl _

theorem membersOf_alike {owner owner' : Members} (howner : owner.SaySame owner')
    {properties properties' : List (Atom × Schema)}
    (hproperties : Schema.PropertiesAlike properties properties') :
    membersOf owner properties rs = membersOf owner' properties' rs' := by
  induction properties generalizing properties' rs rs' with
  | nil =>
    cases hproperties
    rw [membersOf, membersOf]
    · simp
    · simp
  | cons p rest ih =>
    cases hproperties with
    | cons hs hrest =>
      cases h with
      | nil =>
        rw [membersOf, membersOf]
        · simp
        · simp
      | cons hr hrs =>
        obtain ⟨_, -, rfl⟩ := hr
        rw [membersOf, membersOf, ih hrs hrest]
        unfold memberHead
        rw [Comment.ofMembers?_congr hs.raw, howner.readOnly, hs.raw.readOnly, howner.required]

theorem objectOf_alike {owner owner' : Members} (howner : owner.SaySame owner')
    {properties properties' : List (Atom × Schema)}
    (hproperties : Schema.PropertiesAlike properties properties') :
    Except.Agree Resolved.Alike (objectOf owner properties rs)
      (objectOf owner' properties' rs') := by
  unfold objectOf
  rw [importsOf_alike h, declarationsOf_alike h]
  refine .bind_eq (membersOf_alike h howner hproperties) fun members => .ok ?_
  exact (Resolved.Alike.refl { Resolved.plain _ _ with
    imports := importsOf rs', declarations := declarationsOf rs' }).withRaw howner

end

/-! ## The types of schemas -/

variable {ctx ctx' : Context}

/-- The types of a schema agree if it is a reference. -/
def ReferenceAgrees (ctx ctx' : Context) : Schema → Prop
  | .reference _ ref => Except.Agree Resolved.Alike (reference ctx ref) (reference ctx' ref)
  | _ => True

theorem referenceAgrees_self (ctx : Context) (s : Schema) : ReferenceAgrees ctx ctx s := by
  cases s with
  | reference raw ref => exact .refl Resolved.Alike.refl _
  | _ => trivial

/-- Members get the same names. -/
def NamesAgree (ctx ctx' : Context) : Prop :=
  ∀ parent keys, childNames ctx parent keys = childNames ctx' parent keys

/-- Members get the same names where the same names are declared. -/
theorem namesAgree_of_isDeclared (h : ∀ name, ctx.isDeclared name = ctx'.isDeclared name) :
    NamesAgree ctx ctx' := by
  have hfrom : ∀ parent keys used,
      childNamesFrom ctx parent used keys = childNamesFrom ctx' parent used keys := by
    intro parent keys
    induction keys with
    | nil => exact fun _ => rfl
    | cons key rest ih =>
      intro used
      have hname : childName ctx parent key = childName ctx' parent key := by
        unfold childName
        simp only [h]
      rw [childNamesFrom, childNamesFrom, hname]
      simp only [ih]
  intro parent keys
  unfold childNames
  simp only [hfrom]

mutual

/-- The types of schemas that say the same agree, where their references do. -/
theorem shape_agree (hnames : NamesAgree ctx ctx') : ∀ (s s' : Schema) (name : Option String),
    s.Alike s' → (∀ t ∈ s.inside, ReferenceAgrees ctx ctx' t) →
    Timed.Agree Resolved.Alike (shape ctx s name) (shape ctx' s' name)
  | .reference raw ref, _, name, .reference _ hraw, h => by
    rw [shape, shape]
    exact .ofExcept (h _ (List.mem_cons_self ..))
  | .malformed raw, _, name, .malformed hraw, h => by
    rw [shape, shape]
    exact .ofExcept (.error _)
  | .primitive raw, _, name, .primitive hraw, h => by
    rw [shape, shape]
    exact .pure (primitive_alike hraw)
  | .enum raw values, _, name, .enum hraw, h => by
    rw [shape, shape]
    exact .pure (enum_alike hraw values)
  | .bare raw, _, name, .bare hraw, h => by
    rw [shape, shape]
    exact .pure (bare_alike hraw)
  | .openRecord raw, _, name, .openRecord hraw, h => by
    rw [shape, shape]
    exact .pure ((Resolved.Alike.refl (.plain .openRecord "object")).withRaw hraw)
  | .array raw none, _, name, .anyArray hraw, h => by
    rw [shape, shape]
    exact .pure (.refl _)
  | .array raw (some items), _, name, .array hraw hitems, h => by
    rw [shape, shape]
    rw [Schema.inside, Schema.beneath, List.forall_mem_cons] at h
    exact (shape_agree hnames items _ _ hitems h.2).bind fun r r' hr =>
      .pure (arrayOf_alike (hoist_alike (finish_alike hitems hr) _ _))
  | .record raw values, _, name, .record hraw hvalues, h => by
    rw [shape, shape]
    rw [Schema.inside, Schema.beneath, List.forall_mem_cons] at h
    exact (shape_agree hnames values _ _ hvalues h.2).bind fun r r' hr =>
      .pure ((recordOf_alike (finish_alike hvalues hr)).withRaw hraw)
  | .object raw properties, _, name, .object hraw hproperties, h => by
    rw [shape, shape]
    rw [Schema.inside, Schema.beneath, List.forall_mem_cons] at h
    have hkeys : (properties.map fun p => Value.atom p.1) = _ :=
      (List.map_map ..).symm.trans (congrArg (List.map Value.atom) hproperties.keys_eq)
    rw [hnames, hkeys, List.map_map]
    refine Timed.Agree.bind (.ofExcept (.refl (fun _ => rfl) _)) fun names names' hnames' => ?_
    subst hnames'
    exact (Timed.Agree.all (members_agree hnames properties _ names hproperties h.2)).bind
      fun types types' htypes => .ofExcept (objectOf_alike htypes hraw hproperties)
  | .composition raw keyword schemas, _, name, .composition hraw hparts, h => by
    rw [shape, shape]
    rw [Schema.inside, Schema.beneath, List.forall_mem_cons] at h
    exact (parts_agree hnames schemas _ _ 0 hparts h.2).bind fun rs rs' hrs =>
      .pure (combine_alike hrs keyword name)

theorem members_agree (hnames : NamesAgree ctx ctx') :
    ∀ (properties properties' : List (Atom × Schema)) (names : List (Option String)),
    Schema.PropertiesAlike properties properties' →
    (∀ t ∈ Schema.insideProperties properties, ReferenceAgrees ctx ctx' t) →
    List.Forall₂ (Timed.Agree Resolved.Alike) (members ctx properties names)
      (members ctx' properties' names)
  | [], _, names, .nil, h => by
    rw [members, members]
    · exact .nil
    · simp
    · simp
  | _ :: _, _, [], .cons hs hrest, h => by
    rw [members, members]
    · exact .nil
    · simp
    · simp
  | (key, s) :: properties, _, name :: names, .cons hs hrest, h => by
    rw [Schema.insideProperties, List.forall_mem_append] at h
    rw [members, members]
    refine .cons ?_ (members_agree hnames properties _ names hrest h.2)
    exact (shape_agree hnames s _ _ hs h.1).map fun r r' hr => hoist_alike (finish_alike hs hr) _ _

theorem parts_agree (hnames : NamesAgree ctx ctx') :
    ∀ (schemas schemas' : List Schema) (name : Option String) (count : Nat),
    Schema.AllAlike schemas schemas' →
    (∀ t ∈ Schema.insideAll schemas, ReferenceAgrees ctx ctx' t) →
    Timed.Agree (List.Forall₂ Resolved.Alike) (parts ctx name count schemas)
      (parts ctx' name count schemas')
  | [], _, name, count, .nil, h => by
    rw [parts, parts]
    exact .pure .nil
  | s :: schemas, s' :: schemas', name, count, .cons hs hrest, h => by
    rw [Schema.insideAll, List.forall_mem_append] at h
    rw [parts, parts]
    refine (shape_agree hnames s _ _ hs h.1).bind fun r r' hr => ?_
    have hslot := hoist_alike (finish_alike hs hr) (numbered name count) true
    have hcount : (hoist (numbered name count) true (finish s r)).declarations =
        (hoist (numbered name count) true (finish s' r')).declarations := by
      obtain ⟨_, -, heq⟩ := hslot
      rw [heq]
    dsimp only
    rw [hcount]
    exact (parts_agree hnames schemas schemas' name _ hrest h.2).bind
      fun rs rs' hrs => .pure (.cons hslot hrs)

end

theorem value_agree (hnames : NamesAgree ctx ctx') {s s' : Schema} (hs : s.Alike s')
    (h : ∀ t ∈ s.inside, ReferenceAgrees ctx ctx' t) (name : Option String) :
    Timed.Agree Resolved.Alike (value ctx s name) (value ctx' s' name) :=
  (shape_agree hnames s s' _ hs h).map fun _ _ hr => finish_alike hs hr

theorem slot_agree (hnames : NamesAgree ctx ctx') {s s' : Schema} (hs : s.Alike s')
    (h : ∀ t ∈ s.inside, ReferenceAgrees ctx ctx' t) (name : Option String) (combined : Bool) :
    Timed.Agree Resolved.Alike (slot ctx s name combined) (slot ctx' s' name combined) :=
  (value_agree hnames hs h name).map fun _ _ hr => hoist_alike hr _ _

end Resolve
end ApiTypes

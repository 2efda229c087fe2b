import ApiTypes.Proofs.Meaning
import ApiTypes.Proofs.NullKept
import ApiTypes.Proofs.ReadBack
import ApiTypes.Proofs.Spread
import Mathlib.Data.Set.Insert

/-!
# Compositions of enums under a name

* `LiteralReading` : readings of types in which a list of literals is the union of them;
* `EnumPart.type`, `EnumPart.listed` : the type of an enum that is part of a composition, and the
  values that it adds to a merged enum;
* `Resolved.meaning` : the values of a type, where a merged enum is what its parts list;
* `Enum.HasOwnKeys` : enums of which every value has an entry (`EnumPart.listed_eq`);
* `Lists` : the values that are read as enums, in place or at the end of a reference;
* `Resolve.parts_of_lists` : the parts of a composition of enums, which no name changes;
* `named_compositions` : what the composition of enums has for values, with a name and without;
* `Resolve.meaning_read_compose` : what is read in the text of a composition has the values of its
  type.
-/

namespace ApiTypes

/-! ## Readings of literals -/

/-- What types say of values, where one of some literals is a value of one of them. -/
structure LiteralReading (V : Type) extends TypeExpr.Reading V where
  literal : String → Set V
  literals_eq (values : List Value) : literals values =
    TypeExpr.valuesOfJoin .or ((Enum.literals values).map literal)

section

variable {V : Type} (R : LiteralReading V)

/-- The type of an enum that is part of a composition. -/
def EnumPart.type : EnumPart → TypeExpr
  | spread name => .name name
  | values vs => .literals vs

/-- The values that a part adds to a merged enum: those that the constant lists, or of its own
entries. -/
def EnumPart.listed : EnumPart → Set V
  | spread constant => R.valuesOf constant
  | values vs => TypeExpr.valuesOfJoin .or ((Enum.entries vs).map fun e => R.literal e.2)

/-- The values of a type. Where it is declared beside it as a merged enum, it has the values of all
parts of that. -/
def Resolved.meaning (r : Resolved) : Set V :=
  match r.type, r.declarations.getLast? with
  | .valuesOf n, some ⟨_, .mergedEnum m parts, _⟩ =>
    if m = n then TypeExpr.valuesOfJoin .or (parts.map (·.listed R)) else R.valuesOf n
  | t, _ => t.meaning R.toReading

end

/-! ## Entries -/

namespace Enum

variable {values : List Value}

/-- Values of which those with one key have one literal. -/
def HasOwnKeys (values : List Value) : Prop :=
  ∀ v ∈ values, ∀ w ∈ values, key? v = key? w → literal v = literal w

theorem exists_mem_firstOfKey {e : String × String} {es : List (String × String)} (h : e ∈ es) :
    ∃ first ∈ firstOfKey es, first.1 = e.1 := by
  induction es with
  | nil => cases h
  | cons d rest ih =>
    by_cases hkey : d.1 = e.1
    · exact ⟨d, List.mem_cons_self .., hkey⟩
    · have hrest : e ∈ rest := (List.mem_cons.1 h).resolve_left fun heq => hkey (heq ▸ rfl)
      obtain ⟨first, hfirst, heq⟩ := ih hrest
      have hother : first.1 ≠ d.1 := fun hd => hkey (hd.symm.trans heq)
      exact ⟨first, List.mem_cons_of_mem _ (List.mem_filter.2 ⟨hfirst, by simpa using hother⟩), heq⟩

/-- An entry is the key and the literal of a value. -/
theorem exists_of_mem_entries {e : String × String} (h : e ∈ entries values) :
    ∃ v ∈ values, key? v = some e.1 ∧ literal v = e.2 := by
  obtain ⟨v, hv, hentry⟩ := List.mem_filterMap.1 (mem_of_mem_firstOfKey h)
  obtain ⟨k, hkey, rfl⟩ := Option.map_eq_some_iff.1 hentry
  exact ⟨v, hv, hkey, rfl⟩

/-- Every value but `null` has a key. -/
theorem exists_key {v : Value} (h : v ≠ .atom .null) : ∃ k, key? v = some k := by
  unfold key?
  split
  · exact absurd rfl h
  all_goals exact ⟨_, rfl⟩

/-- Where keys are own ones, every value but `null` has an entry. -/
theorem exists_mem_entries (hkeys : HasOwnKeys values) {v : Value} (hv : v ∈ values)
    (hnull : v ≠ .atom .null) : ∃ e ∈ entries values, e.2 = literal v := by
  obtain ⟨k, hk⟩ := exists_key hnull
  have hmem : (k, literal v) ∈ values.filterMap fun v => (key? v).map fun k => (k, literal v) :=
    List.mem_filterMap.2 ⟨v, hv, by rw [hk, Option.map_some]⟩
  obtain ⟨e, he, hkey⟩ := exists_mem_firstOfKey hmem
  obtain ⟨w, hw, hwkey, hwliteral⟩ := exists_of_mem_entries he
  have hsame : key? w = key? v := by rw [hwkey, hk, hkey]
  exact ⟨e, he, hwliteral.symm.trans (hkeys w hw v hv hsame)⟩

end Enum

section

variable {V : Type} (R : LiteralReading V)

theorem LiteralReading.mem_literals {values : List Value} {x : V} :
    x ∈ R.literals values ↔ ∃ v ∈ values, x ∈ R.literal (Enum.literal v) := by
  rw [R.literals_eq]
  constructor
  · rintro ⟨s, hs, hx⟩
    obtain ⟨l, hl, rfl⟩ := List.mem_map.1 hs
    obtain ⟨v, hv, rfl⟩ := List.mem_map.1 (Enum.mem_distinct.1 hl)
    exact ⟨v, hv, hx⟩
  · rintro ⟨v, hv, hx⟩
    exact ⟨_, List.mem_map_of_mem (Enum.mem_distinct.2 (List.mem_map_of_mem hv)), hx⟩

namespace EnumPart

variable {R}

theorem meaning_spread (name : String) :
    (spread name).type.meaning R.toReading = R.name name := by
  rw [type, TypeExpr.meaning]

theorem meaning_values (vs : List Value) :
    (values vs).type.meaning R.toReading = R.literals vs := by
  rw [type, TypeExpr.meaning]

/-- A merged enum has no more of a part than the part. -/
theorem listed_subset {p : EnumPart} (hname : ∀ n, p = spread n → R.name n = R.valuesOf n) :
    p.listed R ⊆ p.type.meaning R.toReading := by
  cases p with
  | spread n => rw [meaning_spread, hname n rfl, listed]
  | values vs =>
    rw [meaning_values]
    rintro x ⟨s, hs, hx⟩
    obtain ⟨e, he, rfl⟩ := List.mem_map.1 hs
    obtain ⟨v, hv, -, hliteral⟩ := Enum.exists_of_mem_entries he
    exact R.mem_literals.2 ⟨v, hv, hliteral.symm ▸ hx⟩

/-- It has all of it where every value has an entry. -/
theorem listed_eq {p : EnumPart} (hname : ∀ n, p = spread n → R.name n = R.valuesOf n)
    (hkeys : ∀ vs, p = values vs → Enum.HasOwnKeys vs ∧ .atom .null ∉ vs) :
    p.listed R = p.type.meaning R.toReading := by
  refine Set.Subset.antisymm (listed_subset hname) ?_
  cases p with
  | spread n => rw [meaning_spread, hname n rfl, listed]
  | values vs =>
    rw [meaning_values]
    intro x hx
    obtain ⟨v, hv, hx⟩ := R.mem_literals.1 hx
    obtain ⟨hown, hnull⟩ := hkeys vs rfl
    have hne : v ≠ .atom .null := fun h => hnull (h ▸ hv)
    obtain ⟨e, he, hliteral⟩ := Enum.exists_mem_entries hown hv hne
    exact ⟨_, List.mem_map_of_mem he, hliteral.symm ▸ hx⟩

end EnumPart

end

/-! ## Members that are enums -/

namespace Schema

variable {raw own : Members} {values : List Value}

theorem enumOf?_of_simpleOf {p : Parts} (h : simpleOf raw p = .enum own values) :
    own = raw ∧ enumOf? raw = some values := by
  unfold simpleOf at h
  split at h
  · cases h
  · split at h
    · rename_i vs hvs
      cases h
      exact ⟨rfl, hvs⟩
    · unfold objectOf at h
      repeat' split at h
      all_goals cases h

theorem enumOf?_of_composedOf {keywords : List Keyword} {p : Parts}
    (h : composedOf simpleOf keywords raw p = .enum own values) :
    own = raw ∧ enumOf? raw = some values := by
  induction keywords with
  | nil => exact enumOf?_of_simpleOf h
  | cons keyword later ih =>
    rw [composedOf] at h
    split at h
    · cases h
    · exact ih h

/-- A value that is read as an enum is a mapping that lists its values. -/
theorem enumOf?_of_ofValue {v : Value} (h : ofValue v = .enum own values) :
    v = .map own ∧ enumOf? own = some values := by
  cases v with
  | atom a => rw [ofValue] at h; cases h
  | list items => rw [ofValue] at h; cases h
  | map raw =>
    rw [ofValue, ofParts] at h
    split at h
    · cases h
    · obtain ⟨rfl, hvalues⟩ := enumOf?_of_composedOf h
      exact ⟨rfl, hvalues⟩

end Schema

/-- The values that are read as enums whose values are not `null`: those that list the values in
place, and the references to them. -/
inductive Lists (ctx : Context) : Value → EnumPart → Prop where
  | inPlace {item : Value} {raw : Members} {values : List Value}
      (hitem : Schema.ofValue item = .enum raw values)
      (hnullable : (Schema.ofValue item).isNullable = false) (hnull : .atom .null ∉ values) :
      Lists ctx item (.values values)
  | reference {item : Value} {raw own ms : Members} {ref : String} {info : Reference.Info}
      {owner : Context} {values : List Value}
      (hitem : Schema.ofValue item = .reference raw ref)
      (hinfo : Reference.info ctx ref = .ok info)
      (hfollow : Reference.follow ctx ref = .ok (ms, owner))
      (hlast : Schema.ofValue (.map ms) = .enum own values) :
      Lists ctx item (.spread info.name)

namespace Resolve

/-- A type that was made of an enum as a part of a composition. -/
structure IsPart (r : Resolved) (p : EnumPart) : Prop where
  isEnum : r.isEnum = true
  type : r.type = p.type
  enumPart : enumPart r = p

theorem hoist_of_isEnum {r : Resolved} (h : r.isEnum = true) (name : Option String) :
    hoist name true r = r := by
  unfold hoist
  split
  · rfl
  · rw [if_neg (by simp [h]), if_neg (by simp [h])]

/-- The type of an enum, whatever the name that it is given. -/
theorem shape_of_lists {ctx : Context} {item : Value} {p : EnumPart} (h : Lists ctx item p) :
    ∃ r, IsPart r p ∧ ∀ name, ∃ q, (shape ctx (Schema.ofValue item) name).outcome = .ok q ∧
      finish (Schema.ofValue item) q = r := by
  cases h with
  | @inPlace raw values hitem hnullable _ =>
    have hlisted := (Schema.enumOf?_of_ofValue hitem).2
    have hraw : Value.flag raw "nullable" = false := by
      rw [hitem] at hnullable
      exact hnullable
    have hfinish : (Resolve.enum raw values).ofSchema raw =
        { Resolve.enum raw values with raw, isRef := false } := by
      simp only [Resolved.ofSchema, hraw, Bool.false_eq_true, if_false]
    refine ⟨(Resolve.enum raw values).ofSchema raw, ?_, fun name => ?_⟩
    · rw [hfinish]
      refine ⟨rfl, rfl, ?_⟩
      rw [enumPart, hlisted]
      rfl
    · refine ⟨Resolve.enum raw values, ?_, ?_⟩
      · rw [hitem, shape]
        rfl
      · rw [hitem]
        rfl
  | @reference raw own ms ref info owner values hitem hinfo hfollow hlast =>
    have hlisted : Schema.enumOf? ms = some values := by
      obtain ⟨hown, hvalues⟩ := Schema.enumOf?_of_ofValue hlast
      rwa [Value.map.inj hown]
    refine ⟨{
      type := .name info.name
      imports := [⟨info.name, some info.document⟩]
      declarations := []
      isEnum := (Schema.enumOf? ms).isSome
      kind := ((Schema.typeNameOf? ms).filter (· ≠ "")).getD "object"
      isRef := true
      raw := ms }, ⟨by rw [hlisted]; rfl, rfl, rfl⟩, fun name => ⟨_, ?_, by rw [hitem]; rfl⟩⟩
    rw [hitem, shape, Timed.outcome_ofExcept]
    simp only [Resolve.reference, hinfo, hfollow, hlast, bind, Except.bind]
    rfl

/-- The parts of a composition of enums. They have no declarations of their own, so that no name
makes a difference. -/
theorem parts_of_lists {ctx : Context} {items : List Value} {ps : List EnumPart}
    (h : List.Forall₂ (Lists ctx) items ps) :
    ∃ rs, List.Forall₂ IsPart rs ps ∧ ∀ name count,
      (parts ctx name count (items.map Schema.ofValue)).outcome = .ok rs := by
  induction h with
  | nil =>
    refine ⟨[], .nil, fun name count => ?_⟩
    rw [List.map_nil, parts]
    rfl
  | @cons item p items ps hitem _ ih =>
    obtain ⟨r, hr, hshape⟩ := shape_of_lists hitem
    obtain ⟨rs, hrs, hparts⟩ := ih
    refine ⟨r :: rs, .cons hr hrs, fun name count => ?_⟩
    obtain ⟨q, hq, rfl⟩ := hshape (numbered name count)
    rw [List.map_cons, parts]
    refine Timed.outcome_bind_ok.2 ⟨q, hq, ?_⟩
    dsimp only
    rw [hoist_of_isEnum hr.isEnum]
    exact Timed.outcome_bind_ok.2 ⟨rs, hparts _ _, rfl⟩

section

variable {V : Type} {R : LiteralReading V} {rs : List Resolved} {ps : List EnumPart}

/-- Enums that are joined have the values that all of them have, or that one of them has. -/
theorem meaning_joined (keyword : Keyword) (h : List.Forall₂ IsPart rs ps) :
    (combine.joined keyword rs).meaning R =
      TypeExpr.valuesOfJoin keyword.operator (ps.map fun p => p.type.meaning R.toReading) := by
  have hoperands : (rs.map (operand keyword)).map (TypeExpr.meaning R.toReading) =
      ps.map fun p => p.type.meaning R.toReading := by
    induction h with
    | nil => rfl
    | cons hr _ ih =>
      rw [List.map_cons, List.map_cons, ih, List.map_cons]
      rw [TypeExpr.meaning_operand, hr.type]
  change TypeExpr.meaning R.toReading (.join keyword.operator (rs.map (operand keyword))) = _
  rw [TypeExpr.meaning, TypeExpr.meaningAll_eq_map, hoperands]

/-- A merged enum has the values that one of its parts lists. -/
theorem meaning_mergedEnum (name : String) (h : List.Forall₂ IsPart rs ps) :
    (mergedEnum name rs).meaning R = TypeExpr.valuesOfJoin .or (ps.map (·.listed R)) := by
  have hparts : rs.map enumPart = ps := by
    induction h with
    | nil => rfl
    | cons hr _ ih => rw [List.map_cons, hr.enumPart, ih]
  have hlast : (mergedEnum name rs).declarations.getLast? = some
      ⟨Name.pascal name, .mergedEnum (Name.pascal name) (rs.map enumPart), importsOf rs⟩ :=
    List.getLast?_concat
  rw [Resolved.meaning, hlast, hparts]
  exact if_pos rfl

end

/-- Parts that are given a name are merged if there are several of them and all are enums. -/
theorem combine_of_isPart (keyword : Keyword) (name : String) {rs : List Resolved}
    {ps : List EnumPart} (h : List.Forall₂ IsPart rs ps) (hne : ps ≠ []) :
    combine keyword none rs = combine.joined keyword rs ∧
      combine keyword (some name) rs =
        if 1 < ps.length then mergedEnum name rs else combine.joined keyword rs := by
  have hall : rs.all (·.isEnum) = true := by
    refine List.all_eq_true.2 fun r hr => ?_
    obtain ⟨p, -, hp⟩ := exists_right_of_forall₂ h hr
    exact hp.isEnum
  obtain ⟨r, rest, rfl⟩ : ∃ r rest, rs = r :: rest := by
    refine List.exists_cons_of_ne_nil ?_
    rintro rfl
    cases h
    exact hne rfl
  have hcombine : combine keyword (some name) (r :: rest) =
      if 1 < (r :: rest).length ∧ (r :: rest).all (·.isEnum) then mergedEnum name (r :: rest)
      else combine.joined keyword (r :: rest) := rfl
  rw [hcombine, hall, h.length_eq]
  exact ⟨rfl, if_congr (and_iff_left rfl) rfl rfl⟩

end Resolve

/-! ## Unions and intersections -/

/-- A union is the intersection just when all are the same. -/
theorem TypeExpr.valuesOfJoin_or_eq_and {V : Type} {sets : List (Set V)} (hne : sets ≠ []) :
    valuesOfJoin .or sets = valuesOfJoin .and sets ↔ ∀ s ∈ sets, ∀ t ∈ sets, s = t := by
  constructor
  · intro h
    have hall : ∀ s ∈ sets, s = valuesOfJoin .or sets := by
      intro s hs
      refine Set.Subset.antisymm (fun x hx => ⟨s, hs, hx⟩) fun x hx => ?_
      rw [h] at hx
      exact hx s hs
    intro s hs t ht
    rw [hall s hs, hall t ht]
  · intro h
    obtain ⟨s, rest, rfl⟩ := List.exists_cons_of_ne_nil hne
    ext x
    constructor
    · rintro ⟨t, ht, hx⟩ u hu
      rwa [h u hu t ht]
    · intro hx
      exact ⟨s, List.mem_cons_self .., hx s (List.mem_cons_self ..)⟩

/-- Several sets in a union, or one set as it is, are what a keyword makes of them, unless it is one
for intersections and they are not the same. -/
theorem TypeExpr.merged_eq_iff {V α : Type} (keyword : Keyword) (f : α → Set V) (parts : List α) :
    (if 1 < parts.length then valuesOfJoin .or (parts.map f)
      else valuesOfJoin keyword.operator (parts.map f)) =
        valuesOfJoin keyword.operator (parts.map f) ↔
      (keyword = .allOf → ∀ p ∈ parts, ∀ q ∈ parts, f p = f q) := by
  cases keyword with
  | oneOf => exact iff_of_true (ite_self _) nofun
  | anyOf => exact iff_of_true (ite_self _) nofun
  | allOf =>
    rw [forall_prop_of_true rfl]
    by_cases hmany : 1 < parts.length
    · have hne : parts.map f ≠ [] := by
        intro h
        rw [List.map_eq_nil_iff.1 h] at hmany
        cases hmany
      rw [if_pos hmany]
      refine (valuesOfJoin_or_eq_and hne).trans ?_
      rw [List.forall_mem_map]
      exact forall₂_congr fun p _ => List.forall_mem_map
    · refine iff_of_true (if_neg hmany) fun p hp q hq => ?_
      match parts, hmany with
      | [r], _ => rw [List.mem_singleton.1 hp, List.mem_singleton.1 hq]
      | [], _ => cases hp
      | _ :: _ :: rest, hmany => exact absurd (by simp) hmany

section

variable {V : Type} {R : LiteralReading V} {ctx : Context} {items : List Value}
  {parts : List EnumPart}

/-- The composition of enums, without a name and with one. -/
theorem exists_composed (keyword : Keyword) {name : String} (hname : name ≠ "")
    (hitems : items ≠ []) (hparts : List.Forall₂ (Lists ctx) items parts) :
    ∃ named unnamed,
      (Resolve.compose ctx keyword (some name) (items.map Schema.ofValue)).outcome = .ok named ∧
      (Resolve.compose ctx keyword none (items.map Schema.ofValue)).outcome = .ok unnamed ∧
      unnamed.meaning R = TypeExpr.valuesOfJoin keyword.operator
        (parts.map fun p => p.type.meaning R.toReading) ∧
      named.meaning R = if 1 < parts.length then
        TypeExpr.valuesOfJoin .or (parts.map (·.listed R)) else unnamed.meaning R := by
  obtain ⟨rs, hrs, houtcome⟩ := Resolve.parts_of_lists hparts
  have hne : parts ≠ [] := by
    rintro rfl
    cases hparts
    exact hitems rfl
  obtain ⟨hunnamed, hnamed⟩ := Resolve.combine_of_isPart keyword name hrs hne
  have hgiven : Resolve.givenName (some name) = some name := by
    rw [Resolve.givenName, Option.filter_some, decide_eq_true hname]
    rfl
  refine ⟨_, _, Timed.outcome_bind_ok.2 ⟨rs, houtcome _ _, rfl⟩,
    Timed.outcome_bind_ok.2 ⟨rs, houtcome _ _, rfl⟩, ?_, ?_⟩
  · change (Resolve.combine keyword none rs).meaning R = _
    rw [hunnamed, Resolve.meaning_joined keyword hrs]
  · change (Resolve.combine keyword (Resolve.givenName (some name)) rs).meaning R = if _ then _ else
      (Resolve.combine keyword none rs).meaning R
    rw [hgiven, hnamed, hunnamed]
    split
    · exact Resolve.meaning_mergedEnum name hrs
    · rfl

end

/-- What a composition of enums has for values. Without a name these are the values that all of them
have, for `allOf`, or else that one of them has. With a name, one enum alone is the same; several
are merged to one with all values that they list, whatever the keyword. Where every value that is
listed in place has an entry of its own, a name makes no difference, except that for `allOf` it
makes none just when all have the same values. -/
theorem named_compositions {V : Type} (R : LiteralReading V) {ctx : Context} (keyword : Keyword)
    {name : String} (hname : name ≠ "") {items : List Value} (hitems : items ≠ [])
    {parts : List EnumPart} (hparts : List.Forall₂ (Lists ctx) items parts)
    (hnames : ∀ n, .spread n ∈ parts → R.name n = R.valuesOf n) :
    ∃ named unnamed,
      (Resolve.compose ctx keyword (some name) (items.map Schema.ofValue)).outcome = .ok named ∧
      (Resolve.compose ctx keyword none (items.map Schema.ofValue)).outcome = .ok unnamed ∧
      unnamed.meaning R = TypeExpr.valuesOfJoin keyword.operator
        (parts.map fun p => p.type.meaning R.toReading) ∧
      named.meaning R = (if 1 < parts.length then
        TypeExpr.valuesOfJoin .or (parts.map (·.listed R)) else unnamed.meaning R) ∧
      ((∀ values, .values values ∈ parts → Enum.HasOwnKeys values) →
        (named.meaning R = unnamed.meaning R ↔ (keyword = .allOf → ∀ p ∈ parts, ∀ q ∈ parts,
          p.type.meaning R.toReading = q.type.meaning R.toReading))) := by
  obtain ⟨named, unnamed, hok, hok', hunnamed, hnamed⟩ :=
    exists_composed (R := R) keyword hname hitems hparts
  refine ⟨named, unnamed, hok, hok', hunnamed, hnamed, fun hkeys => ?_⟩
  have hlisted : parts.map (·.listed R) = parts.map fun p => p.type.meaning R.toReading := by
    refine List.map_congr_left fun p hp => EnumPart.listed_eq (fun n hn => hnames n (hn ▸ hp)) ?_
    rintro vs rfl
    obtain ⟨item, -, hlists⟩ := exists_left_of_forall₂ hparts hp
    cases hlists with
    | inPlace _ _ hnull => exact ⟨hkeys vs hp, hnull⟩
  rw [hnamed, hunnamed, hlisted]
  exact TypeExpr.merged_eq_iff keyword _ parts

/-- The text of a composition joins what the type joins: read by the rules of operators, it has the
values of the type. -/
theorem Resolve.meaning_read_compose {V : Type} (R : Written.Reading V) {ctx : Context}
    (hctx : ctx.SuffixesHave Name.Solid) {keyword : Keyword} {name : Option String}
    {schemas : List Schema} {r : Resolved}
    (h : (compose ctx keyword name schemas).outcome = .ok r) :
    (Written.read r.type.render).meaning R = r.type.meaning R.ofTypes := by
  obtain ⟨types, htypes, h⟩ := Timed.outcome_bind_ok.1 h
  obtain rfl : combine keyword (givenName name) types = r := Except.ok.inj h
  have hplain : ∀ n, Name.Solid n → Name.Plain n := fun _ hn => hn.plain
  have hparts := clear_parts Name.Solid.laws
    ((clearLaws Name.Solid.laws hplain hctx).parts _ _ _ _ htypes)
    (made_partName Name.Solid.laws (givenName name) keyword)
  have hclear := clear_combine Name.Solid.laws hplain hparts keyword (givenName name)
  exact ((Written.same_read hclear.type).meaning R).trans (TypeExpr.meaning_written R _)

/-- A reading in which each literal is its own value, and a name stands for an enum. -/
def textReading (enums : String → List Value) : LiteralReading String where
  builtin _ := {l | l ∈ Enum.literals (enums "null")}
  name n := {l | l ∈ Enum.literals (enums n)}
  literals values := {l | l ∈ Enum.literals values}
  valuesOf n := {l | l ∈ Enum.literals (enums n)}
  array s := s
  object _ := ∅
  record s := s
  openRecord := ∅
  emptyObject := ∅
  nullName := rfl
  literal l := {l}
  literals_eq values := by
    ext l
    constructor
    · intro hl
      exact ⟨_, List.mem_map_of_mem hl, rfl⟩
    · rintro ⟨s, hs, hl⟩
      obtain ⟨l', hl', rfl⟩ := List.mem_map.1 hs
      exact Set.mem_singleton_iff.1 hl ▸ hl'

/-- What values in place list, where each literal is its own value. -/
theorem mem_listed_textReading {enums : String → List Value} {vs : List Value} {l : String} :
    l ∈ (EnumPart.values vs).listed (textReading enums) ↔ l ∈ (Enum.entries vs).map Prod.snd := by
  constructor
  · rintro ⟨s, hs, hl⟩
    obtain ⟨e, he, rfl⟩ := List.mem_map.1 hs
    exact Set.mem_singleton_iff.1 hl ▸ List.mem_map_of_mem he
  · intro hl
    obtain ⟨e, he, rfl⟩ := List.mem_map.1 hl
    exact ⟨_, List.mem_map_of_mem he, rfl⟩

/-- A value that lists some values. -/
def enumOf (values : List Value) : Value := .map [(.text "enum", .list values)]

theorem named_compositions_colors :
    let R := textReading fun n => if n = "Colors" then [.text "red", .text "blue"] else []
    let items := [.map [(.text "$ref", .text "#/components/schemas/Colors")],
      enumOf [.text "none"]]
    ∃ named unnamed,
      (Resolve.compose sizesContext .anyOf (some "Any") (items.map Schema.ofValue)).outcome =
        .ok named ∧
      (Resolve.compose sizesContext .anyOf none (items.map Schema.ofValue)).outcome =
        .ok unnamed ∧
      named.meaning R = unnamed.meaning R ∧ "'red'" ∈ named.meaning R := by
  intro R items
  obtain ⟨info, hinfo, hname⟩ := Except.exists_of_any
    (x := Reference.info sizesContext "#/components/schemas/Colors")
    (p := fun info => decide (info.name = "Colors")) (by decide +kernel)
  obtain ⟨⟨ms, owner⟩, hfollow, hkind⟩ := Except.exists_of_any
    (x := Reference.follow sizesContext "#/components/schemas/Colors")
    (p := fun r => decide ((Schema.ofValue (.map r.1)).kind? = some .enum)) (by decide +kernel)
  obtain ⟨own, values, hlast⟩ : ∃ own values, Schema.ofValue (.map ms) = .enum own values := by
    have h := of_decide_eq_true hkind
    dsimp only at h
    cases hs : Schema.ofValue (.map ms) with
    | enum own values => exact ⟨own, values, rfl⟩
    | _ =>
      rw [hs] at h
      exact absurd h (by simp [Schema.kind?])
  have hcolors : Lists sizesContext (.map [(.text "$ref", .text "#/components/schemas/Colors")])
      (.spread "Colors") := of_decide_eq_true hname ▸ .reference rfl hinfo hfollow hlast
  have hnone : Lists sizesContext (enumOf [.text "none"]) (.values [.text "none"]) :=
    .inPlace rfl rfl (by simp)
  obtain ⟨named, unnamed, hok, hok', -, hnamed, hsame⟩ := named_compositions R .anyOf
    (show "Any" ≠ "" by decide) (show items ≠ [] by simp [items]) (.cons hcolors (.cons hnone .nil))
    fun _ _ => rfl
  refine ⟨named, unnamed, hok, hok', (hsame ?_).2 fun h => Keyword.noConfusion h, ?_⟩
  · intro vs hvs
    obtain rfl : vs = [.text "none"] := by simpa using hvs
    intro v hv w hw _
    rw [List.mem_singleton.1 hv, List.mem_singleton.1 hw]
  · rw [hnamed]
    refine ⟨_, List.mem_cons_self .., ?_⟩
    exact (by decide +kernel : "'red'" ∈ Enum.literals [.text "red", .text "blue"])

/-- Two enums that share a value, and one of which two values have one key. -/
theorem named_compositions_letters :
    let R := textReading fun _ => []
    let ctx := Context.start [] "" (.map [])
    let letters := [enumOf [.text "a", .text "b"], enumOf [.text "b", .text "c"]]
    let flags := [enumOf [.bool true, .text "true"], enumOf [.text "none"]]
    (∃ named unnamed,
      (Resolve.compose ctx .allOf (some "Letter") (letters.map Schema.ofValue)).outcome =
        .ok named ∧
      (Resolve.compose ctx .allOf none (letters.map Schema.ofValue)).outcome = .ok unnamed ∧
      "'a'" ∈ named.meaning R ∧ "'a'" ∉ unnamed.meaning R) ∧
    ∃ named unnamed,
      (Resolve.compose ctx .anyOf (some "Flag") (flags.map Schema.ofValue)).outcome = .ok named ∧
      (Resolve.compose ctx .anyOf none (flags.map Schema.ofValue)).outcome = .ok unnamed ∧
      "'true'" ∉ named.meaning R ∧ "'true'" ∈ unnamed.meaning R := by
  intro R ctx letters flags
  have hlists : ∀ values, .atom .null ∉ values → Lists ctx (enumOf values) (.values values) :=
    fun values hnull => .inPlace rfl rfl hnull
  have hitems : ∀ v w : List Value, .atom .null ∉ v → .atom .null ∉ w →
      List.Forall₂ (Lists ctx) [enumOf v, enumOf w] [.values v, .values w] :=
    fun v w hv hw => .cons (hlists v hv) (.cons (hlists w hw) .nil)
  constructor
  · obtain ⟨named, unnamed, hok, hok', hunnamed, hnamed⟩ := exists_composed (R := R) .allOf
      (show "Letter" ≠ "" by decide) (List.cons_ne_nil _ _)
      (hitems [.text "a", .text "b"] [.text "b", .text "c"] (by simp) (by simp))
    refine ⟨named, unnamed, hok, hok', ?_, ?_⟩
    · rw [hnamed]
      exact ⟨_, List.mem_cons_self .., mem_listed_textReading.2 (by decide +kernel)⟩
    · rw [hunnamed]
      intro h
      have hsecond := h _ (List.mem_cons_of_mem _ (List.mem_cons_self ..))
      dsimp only at hsecond
      rw [EnumPart.meaning_values] at hsecond
      exact absurd hsecond (by decide +kernel : "'a'" ∉ Enum.literals [.text "b", .text "c"])
  · obtain ⟨named, unnamed, hok, hok', hunnamed, hnamed⟩ := exists_composed (R := R) .anyOf
      (show "Flag" ≠ "" by decide) (List.cons_ne_nil _ _)
      (hitems [.bool true, .text "true"] [.text "none"] (by simp) (by simp))
    refine ⟨named, unnamed, hok, hok', ?_, ?_⟩
    · rw [hnamed]
      rintro ⟨s, hs, hl⟩
      rcases List.mem_cons.1 hs with rfl | hs
      · exact absurd (mem_listed_textReading.1 hl) (by decide +kernel)
      · rw [List.mem_singleton.1 hs] at hl
        exact absurd (mem_listed_textReading.1 hl) (by decide +kernel)
    · rw [hunnamed]
      refine ⟨_, List.mem_cons_self .., ?_⟩
      dsimp only
      rw [EnumPart.meaning_values]
      exact (by decide +kernel : "'true'" ∈ Enum.literals [.bool true, .text "true"])

end ApiTypes

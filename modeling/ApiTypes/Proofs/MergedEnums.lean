import ApiTypes.Proofs.NamedCompositions
import Mathlib.Data.List.Nodup

/-!
# The constants of merged enums

* `Enum.firstWith?` : the first of some values that has a key; `Enum.mem_entries` : the entries of
  an enum are the keys and literals of these;
* `Enum.merged` : the entries of several enums, one after another; `Enum.nodup_merged` : when their
  keys differ;
* `Schema.ListsValues` : the values that are read as enums in place;
* `Resolve.combine_of_listed` : the constant that a named composition of enums is merged to;
* `merged_entries` : the text of that constant, and which keys and literals it lists.
-/

namespace ApiTypes

/-! ## Entries of one enum -/

namespace Enum

variable {values : List Value}

theorem mem_firstOfKey {e : String × String} {es : List (String × String)} :
    e ∈ firstOfKey es ↔ es.find? (fun d => d.1 = e.1) = some e := by
  induction es with
  | nil => simp [firstOfKey]
  | cons d rest ih =>
    rw [firstOfKey, List.mem_cons, List.mem_filter, List.find?_cons]
    by_cases hkey : d.1 = e.1
    · simp [hkey, eq_comm]
    · have hne : e ≠ d := fun h => hkey (h ▸ rfl)
      simp [hkey, hne, ih, Ne.symm hkey]

theorem nodup_keys_firstOfKey (es : List (String × String)) :
    ((firstOfKey es).map Prod.fst).Nodup := by
  induction es with
  | nil => exact .nil
  | cons d rest ih =>
    rw [firstOfKey, List.map_cons, List.nodup_cons]
    constructor
    · intro h
      obtain ⟨e, he, hkey⟩ := List.mem_map.1 h
      exact of_decide_eq_true (List.mem_filter.1 he).2 hkey
    · exact ih.sublist (List.filter_sublist.map _)

/-- The first of some values that has a key. -/
def firstWith? (values : List Value) (key : String) : Option Value :=
  values.find? fun v => key? v = some key

theorem mem_entries {e : String × String} :
    e ∈ entries values ↔ ∃ v, firstWith? values e.1 = some v ∧ literal v = e.2 := by
  have hfirst : (fun v => ((key? v).map fun k => (k, literal v)).any fun d => decide (d.1 = e.1)) =
      fun v => decide (key? v = some e.1) := by
    funext v
    cases key? v <;> simp
  rw [entries, mem_firstOfKey, List.find?_filterMap, hfirst, Option.bind_eq_some_iff]
  refine exists_congr fun v => and_congr_right fun hv => ?_
  have hkey : key? v = some e.1 := by simpa using List.find?_some hv
  simp [hkey, Prod.ext_iff]

theorem nodup_keys_entries (values : List Value) : ((entries values).map Prod.fst).Nodup :=
  nodup_keys_firstOfKey _

/-- The keys of the entries are those of the values. -/
theorem mem_keys_entries {key : String} :
    key ∈ (entries values).map Prod.fst ↔ ∃ v ∈ values, key? v = some key := by
  constructor
  · intro h
    obtain ⟨e, he, rfl⟩ := List.mem_map.1 h
    obtain ⟨v, hv, hkey, -⟩ := exists_of_mem_entries he
    exact ⟨v, hv, hkey⟩
  · rintro ⟨v, hv, hkey⟩
    obtain ⟨w, hw⟩ : ∃ w, firstWith? values key = some w :=
      Option.isSome_iff_exists.1 (List.find?_isSome.2 ⟨v, hv, decide_eq_true hkey⟩)
    exact List.mem_map.2 ⟨(key, literal w), mem_entries.2 ⟨w, hw, rfl⟩, rfl⟩

/-! ## Entries of several enums -/

/-- The entries of several enums, one after another. -/
def merged (members : List (List Value)) : List (String × String) := members.flatMap entries

/-- No value of one enum has the key of a value of another one. -/
def KeysApart (vs ws : List Value) : Prop :=
  ∀ v ∈ vs, ∀ w ∈ ws, ∀ key, key? v = some key → key? w ≠ some key

variable {members : List (List Value)}

theorem mem_merged {e : String × String} : e ∈ merged members ↔
    ∃ values ∈ members, ∃ v, firstWith? values e.1 = some v ∧ literal v = e.2 :=
  List.mem_flatMap.trans (exists_congr fun _ => and_congr_right fun _ => mem_entries)

/-- Each enum has different keys, so that a key that comes again is one of two enums. -/
theorem nodup_merged : ((merged members).map Prod.fst).Nodup ↔ members.Pairwise KeysApart := by
  rw [merged, List.map_flatMap, List.nodup_flatMap]
  refine (and_iff_right fun values _ => nodup_keys_entries values).trans (iff_of_eq ?_)
  congr 1
  funext vs ws
  refine propext ⟨fun h v hv w hw key hkey hkey' => ?_, fun h key hv hw => ?_⟩
  · exact h (mem_keys_entries.2 ⟨v, hv, hkey⟩) (mem_keys_entries.2 ⟨w, hw, hkey'⟩)
  · obtain ⟨v, hv, hkey⟩ := mem_keys_entries.1 hv
    obtain ⟨w, hw, hkey'⟩ := mem_keys_entries.1 hw
    exact h v hv w hw key hkey hkey'

end Enum

/-- The text of a merged enum without names of other ones has a line for each entry. -/
theorem Model.render_mergedEnum (name : String) (members : List (List Value)) :
    (Model.mergedEnum name (members.map .values)).render =
      constant name (String.join ((Enum.merged members).map Enum.entryLine)) := by
  have hbody : String.join ((members.map EnumPart.values).map EnumPart.render) =
      String.join ((Enum.merged members).map Enum.entryLine) := by
    induction members with
    | nil => rfl
    | cons values rest ih =>
      have hcons : Enum.merged (values :: rest) = Enum.entries values ++ Enum.merged rest :=
        List.flatMap_cons
      rw [List.map_cons, List.map_cons, String.join_cons, ih, hcons, List.map_append,
        String.join_append]
      rfl
  rw [render, hbody]

/-! ## Named compositions of enums -/

/-- A value is read as an enum with these values. -/
def Schema.ListsValues (item : Value) (values : List Value) : Prop :=
  ∃ raw, Schema.ofValue item = .enum raw values

namespace Resolve

/-- A type that was made of a list of values in place, as a part of a composition. -/
structure IsListed (r : Resolved) (values : List Value) : Prop where
  isEnum : r.isEnum = true
  enumPart : enumPart r = .values values
  imports : r.imports = []
  declarations : r.declarations = []

theorem isListed_finish {item : Value} {raw : Members} {values : List Value}
    (h : Schema.ofValue item = .enum raw values) :
    IsListed (finish (Schema.ofValue item) (Resolve.enum raw values)) values := by
  obtain ⟨type, hfinish⟩ := (Resolve.enum raw values).ofSchema_eq raw
  have hvalues := (Schema.enumOf?_of_ofValue h).2
  rw [h]
  change IsListed ((Resolve.enum raw values).ofSchema raw) values
  rw [hfinish]
  refine ⟨rfl, ?_, rfl, rfl⟩
  rw [Resolve.enumPart, hvalues]
  rfl

/-- The parts of a composition of enums in place. None of them is declared, whatever the name. -/
theorem parts_of_listed (ctx : Context) {items : List Value} {members : List (List Value)}
    (h : List.Forall₂ Schema.ListsValues items members) :
    ∃ rs, List.Forall₂ IsListed rs members ∧ ∀ name count,
      (parts ctx name count (items.map Schema.ofValue)).outcome = .ok rs := by
  induction h with
  | nil =>
    refine ⟨[], .nil, fun name count => ?_⟩
    rw [List.map_nil, parts]
    rfl
  | @cons item values items members hitem _ ih =>
    obtain ⟨raw, hitem⟩ := hitem
    obtain ⟨rs, hrs, hparts⟩ := ih
    have hlisted := isListed_finish hitem
    refine ⟨_, .cons hlisted hrs, fun name count => ?_⟩
    have hshape : (shape ctx (Schema.ofValue item) (numbered name count)).outcome =
        .ok (Resolve.enum raw values) := by
      rw [hitem, shape]
      rfl
    rw [List.map_cons, parts]
    refine Timed.outcome_bind_ok.2 ⟨_, hshape, ?_⟩
    dsimp only
    rw [hoist_of_isEnum hlisted.isEnum]
    exact Timed.outcome_bind_ok.2 ⟨rs, hparts _ _, rfl⟩

/-- Several enums in place are merged to one constant that needs nothing else. -/
theorem combine_of_listed (keyword : Keyword) (name : String) {rs : List Resolved}
    {members : List (List Value)} (h : List.Forall₂ IsListed rs members)
    (hmany : 1 < members.length) :
    combine keyword (some name) rs =
      { Resolved.plain (.valuesOf (Name.pascal name)) "object" with
        imports := [.here (Name.pascal name)]
        declarations := [⟨Name.pascal name,
          .mergedEnum (Name.pascal name) (members.map .values), []⟩] } := by
  have hall : rs.all (·.isEnum) = true := by
    refine List.all_eq_true.2 fun r hr => ?_
    obtain ⟨values, -, hlisted⟩ := exists_right_of_forall₂ h hr
    exact hlisted.isEnum
  have hnothing : importsOf rs = [] ∧ declarationsOf rs = [] := by
    constructor
    all_goals
      refine List.flatMap_eq_nil_iff.2 fun r hr => ?_
      obtain ⟨values, -, hlisted⟩ := exists_right_of_forall₂ h hr
    · exact hlisted.imports
    · exact hlisted.declarations
  have hparts : rs.map Resolve.enumPart = members.map .values := by
    clear hmany hall hnothing
    induction h with
    | nil => rfl
    | cons hr _ ih => rw [List.map_cons, hr.enumPart, ih, List.map_cons]
  have hlength : 1 < rs.length := h.length_eq ▸ hmany
  rw [combine_eq_mergedEnum keyword name hlength hall, mergedEnum, hnothing.1, hnothing.2, hparts]
  rfl

end Resolve

/-- What a named composition of several enums in place declares: one constant, with a line for each
entry. The keys of each enum differ, but entries of different enums are not compared: all keys of
the constant differ just when no two enums have a key in common. A key and a literal are an entry
just when the literal is that of the first value with the key in one of the enums. So all values of
an enum but `null` are there, if no two of its values with different literals have one key. -/
theorem merged_entries (ctx : Context) (keyword : Keyword) {name : String} (hname : name ≠ "")
    {items : List Value} {members : List (List Value)} (hmany : 1 < items.length)
    (hitems : List.Forall₂ Schema.ListsValues items members) :
    ∃ r model,
      (Resolve.compose ctx keyword (some name) (items.map Schema.ofValue)).outcome = .ok r ∧
      r.type = .valuesOf (Name.pascal name) ∧
      r.declarations = [⟨Name.pascal name, model, []⟩] ∧
      model.render = Model.constant (Name.pascal name)
        (String.join ((Enum.merged members).map Enum.entryLine)) ∧
      (((Enum.merged members).map Prod.fst).Nodup ↔ members.Pairwise Enum.KeysApart) ∧
      (∀ key literal, (key, literal) ∈ Enum.merged members ↔ ∃ values ∈ members, ∃ v,
        Enum.firstWith? values key = some v ∧ Enum.literal v = literal) ∧
      ∀ values ∈ members, Enum.HasOwnKeys values → ∀ v ∈ values, v ≠ .atom .null →
        Enum.literal v ∈ (Enum.merged members).map Prod.snd := by
  obtain ⟨rs, hrs, hparts⟩ := Resolve.parts_of_listed ctx hitems
  have hgiven : Resolve.givenName (some name) = some name := by
    rw [Resolve.givenName, Option.filter_some, decide_eq_true hname]
    rfl
  have hcombined := Resolve.combine_of_listed keyword name hrs (hitems.length_eq ▸ hmany)
  refine ⟨Resolve.combine keyword (some name) rs, _,
    Timed.outcome_bind_ok.2 ⟨rs, hparts _ _, ?_⟩, ?_, ?_,
    Model.render_mergedEnum (Name.pascal name) members, Enum.nodup_merged,
    fun _ _ => Enum.mem_merged, ?_⟩
  · rw [hgiven]
    rfl
  · rw [hcombined]
    rfl
  · rw [hcombined]
  · intro values hvalues hkeys v hv hnull
    obtain ⟨e, he, hliteral⟩ := Enum.exists_mem_entries hkeys hv hnull
    exact List.mem_map.2 ⟨e, List.mem_flatMap.2 ⟨values, hvalues, he⟩, hliteral⟩

theorem merged_entries_apart :
    let ctx := Context.start [] "" (.map [])
    let items := [enumOf [.text "a", .text "b"], enumOf [.atom (.int 1), .atom .null]]
    ∃ r model, (Resolve.compose ctx .oneOf (some "letter") (items.map Schema.ofValue)).outcome =
        .ok r ∧ r.declarations = [⟨"Letter", model, []⟩] ∧
      model.render = Model.constant "Letter" "  a: 'a',\n  b: 'b',\n  NUMBER_1: 1,\n" := by
  intro ctx items
  have hitems : List.Forall₂ Schema.ListsValues items
      [[.text "a", .text "b"], [.atom (.int 1), .atom .null]] :=
    .cons ⟨_, rfl⟩ (.cons ⟨_, rfl⟩ .nil)
  obtain ⟨r, model, hok, -, hdeclared, htext, -⟩ := merged_entries ctx .oneOf
    (show "letter" ≠ "" by decide) (show 1 < items.length by decide) hitems
  have hname : Name.pascal "letter" = "Letter" := by decide +kernel
  rw [hname] at hdeclared htext
  exact ⟨r, model, hok, hdeclared, htext.trans (by decide +kernel)⟩

/-- Two enums that share a value, and one of which two values have one key. -/
theorem merged_entries_overlapping :
    let ctx := Context.start [] "" (.map [])
    let letters := [enumOf [.text "a", .text "b"], enumOf [.text "b", .text "c"]]
    let flags := [enumOf [.bool true, .text "true"], enumOf [.text "none"]]
    (∃ r, (Resolve.compose ctx .anyOf (some "Letter") (letters.map Schema.ofValue)).outcome =
        .ok r ∧ r.declarations.map (·.model.render) =
          [Model.constant "Letter" "  a: 'a',\n  b: 'b',\n  b: 'b',\n  c: 'c',\n"]) ∧
    ∃ r, (Resolve.compose ctx .anyOf (some "Flag") (flags.map Schema.ofValue)).outcome = .ok r ∧
      r.declarations.map (·.model.render) =
        [Model.constant "Flag" "  true: true,\n  none: 'none',\n"] ∧
      Enum.literal (.text "true") = "'true'" := by
  intro ctx letters flags
  obtain ⟨r, hr, htext⟩ := Except.exists_of_any
    (x := (Resolve.compose ctx .anyOf (some "Letter") (letters.map Schema.ofValue)).outcome)
    (p := fun r => decide (r.declarations.map (·.model.render) =
      [Model.constant "Letter" "  a: 'a',\n  b: 'b',\n  b: 'b',\n  c: 'c',\n"]))
    (by decide +kernel)
  obtain ⟨r', hr', htext'⟩ := Except.exists_of_any
    (x := (Resolve.compose ctx .anyOf (some "Flag") (flags.map Schema.ofValue)).outcome)
    (p := fun r => decide (r.declarations.map (·.model.render) =
      [Model.constant "Flag" "  true: true,\n  none: 'none',\n"]))
    (by decide +kernel)
  refine ⟨⟨r, hr, of_decide_eq_true htext⟩, r', hr', of_decide_eq_true htext', ?_⟩
  decide +kernel

end ApiTypes

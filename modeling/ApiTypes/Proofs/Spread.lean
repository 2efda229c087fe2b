import ApiTypes.Proofs.Entries
import ApiTypes.Proofs.Made

/-!
# Enums that other enums take in

A merged enum takes in the enum that a reference leads to by the name of a constant.

* `Model.constants` : the constants that a model declares; `Model.render_constant` : they stand in
  its text;
* `Reference.follow_ok` : a chain that ends in a list of values begins with an alias, or with the
  mapping that lists them;
* `spread_values` : where a component schema is named that is no alias, no array and no composition,
  what a merged enum takes in is a constant.
-/

namespace ApiTypes

/-! ## Parts of texts -/

namespace Text

variable {part s t : String}

/-- A text has another one in it. -/
def Holds (s part : String) : Prop := ∃ before after, s = before ++ part ++ after

theorem Holds.append (h : Holds s part) (t : String) : Holds (s ++ t) part := by
  obtain ⟨before, after, rfl⟩ := h
  exact ⟨before, after ++ t, by rw [String.append_assoc]⟩

theorem Holds.append_left (h : Holds t part) (s : String) : Holds (s ++ t) part := by
  obtain ⟨before, after, rfl⟩ := h
  exact ⟨s ++ before, after, by rw [← String.append_assoc, ← String.append_assoc]⟩

theorem holds_end (a b c d : String) : Holds (a ++ b ++ c ++ d) (b ++ c ++ d) :=
  ⟨a, "", by simp only [String.append_assoc, String.append_empty]⟩

end Text

/-! ## Constants -/

namespace Model

/-- The constants that a model declares. -/
def constants : Model → List String
  | interface .. | synonym .. | empty .. => []
  | enum _ name _ => [name]
  | mergedEnum name _ => [name]
  | both first second => first.constants ++ second.constants

/-- The start of the declaration of a constant. -/
def constantHead (name : String) : String := "export const " ++ name ++ " = \x7b\n"

theorem holds_constant (name body : String) :
    Text.Holds (constant name body) (constantHead name) :=
  ((Text.holds_end _ _ _ _).append body).append _

/-- The text of a model declares its constants. -/
theorem holds_render {m : Model} {name : String} (h : name ∈ m.constants) :
    Text.Holds m.render (constantHead name) := by
  induction m with
  | interface comment n type => cases h
  | synonym comment n type => cases h
  | empty comment n => cases h
  | enum comment n values =>
    obtain rfl := List.mem_singleton.1 h
    exact ((holds_constant name (Enum.body values)).append_left _).append_left _
  | mergedEnum n parts =>
    obtain rfl := List.mem_singleton.1 h
    exact holds_constant name _
  | both first second ihFirst ihSecond =>
    rcases List.mem_append.1 h with h | h
    · exact ((ihFirst h).append "\n").append second.render
    · exact (ihSecond h).append_left (first.render ++ "\n")

end Model

/-! ## Schemas that list values -/

namespace Schema

/-- The kinds of schemas that are not declared as enums, though they may list values. -/
def Kind.others : List Kind := [.reference, .composition, .array]

variable {raw : Members}

theorem kind_of_refOf? (h : (refOf? raw).isSome = true) :
    (ofValue (.map raw)).kind? = some .reference := by
  obtain ⟨ref, href⟩ := Option.isSome_iff_exists.1 h
  rw [ofValue, ofParts, href]
  rfl

theorem kind_composedOf {values : List Value} (h : enumOf? raw = some values)
    (keywords : List Keyword) (p : Parts) :
    (composedOf simpleOf keywords raw p).kind? = some .composition ∨
      (composedOf simpleOf keywords raw p).kind? = some .array ∨
      composedOf simpleOf keywords raw p = .enum raw values := by
  induction keywords with
  | nil =>
    rw [composedOf, simpleOf]
    split
    · exact .inr (.inl rfl)
    · rw [h]
      exact .inr (.inr rfl)
  | cons keyword later ih =>
    rw [composedOf]
    split
    · exact .inl rfl
    · exact ih

/-- A mapping that lists values is an enum, unless it is one of the other kinds. -/
theorem exists_enum (h : (enumOf? raw).isSome = true)
    (hkind : ∀ kind ∈ Kind.others, (ofValue (.map raw)).kind? ≠ some kind) :
    ∃ values, ofValue (.map raw) = .enum raw values := by
  obtain ⟨values, hvalues⟩ := Option.isSome_iff_exists.1 h
  have hcases := kind_composedOf hvalues Keyword.order (partsOf raw)
  rw [ofValue, ofParts] at hkind ⊢
  cases href : refOf? raw with
  | some ref =>
    rw [href] at hkind
    exact absurd rfl (hkind .reference (by decide))
  | none =>
    rw [href] at hkind
    rcases hcases with hcomposition | harray | henum
    · exact absurd hcomposition (hkind .composition (by decide))
    · exact absurd harray (hkind .array (by decide))
    · exact ⟨values, henum⟩

end Schema

/-! ## Chains that end in a list of values -/

theorem Reference.enumOf?_mappingOf (ref : String) : Schema.enumOf? (mappingOf ref) = none := rfl

/-- A chain that ends in a list of values begins with an alias or with the mapping that lists
them. -/
theorem Reference.follow_ok {ctx owner : Context} {ref : String} {ms : Members}
    (h : follow ctx ref = .ok (ms, owner)) (henum : (Schema.enumOf? ms).isSome = true) :
    ∃ located start, locate ctx ref = .ok located ∧ located.node = .map start ∧
      ((Schema.refOf? start).isSome = true ∨ start = ms) := by
  rw [follow, stepBound, followFor] at h
  obtain ⟨located, hlocated, h⟩ := Except.bind_eq_ok.1 h
  refine ⟨located, ?_⟩
  split_ifs at h
  · obtain ⟨rfl, -⟩ : mappingOf ref = ms ∧ ctx = owner := by simpa [pure, Except.pure] using h
    rw [enumOf?_mappingOf] at henum
    cases henum
  · dsimp only at h
    split at h
    · rename_i start hstart
      refine ⟨start, hlocated, hstart, ?_⟩
      split at h
      · rename_i next hnext
        exact .inl (by rw [hnext]; rfl)
      · obtain ⟨rfl, -⟩ : start = ms ∧ _ = owner := by simpa [pure, Except.pure] using h
        exact .inr rfl
    · obtain ⟨rfl, -⟩ : [] = ms ∧ _ = owner := by simpa [pure, Except.pure] using h
      cases henum

/-! ## Entries -/

theorem Resolved.ofSchema_eq (raw : Members) (r : Resolved) : ∃ type,
    r.ofSchema raw = { r with type, raw, isRef := false } := by
  unfold ofSchema withNull
  dsimp only
  split_ifs
  · exact ⟨r.type.nullable, rfl⟩
  · exact ⟨r.type, rfl⟩
  · exact ⟨r.type, rfl⟩

/-- An entry that is an enum is declared with a constant of its name. -/
theorem Definition.ofEntry_enum (ctx : Context) {e : Components.Entry} {name : String}
    (hname : e.declaredName = .ok name) {raw : Members} {values : List Value}
    (h : Schema.ofValue e.schema = .enum raw values) :
    ∃ ds, (ofEntry ctx e).outcome = .ok ds ∧
      ∃ d ∈ ds, d.name = name ∧ name ∈ d.model.constants := by
  obtain ⟨base, hbase, hsuffixed⟩ := Except.bind_eq_ok.1 hname
  have hvalue : (Resolve.value ctx (.enum raw values) (some name)).outcome =
      .ok ((Resolve.enum raw values).ofSchema raw) := by
    refine Resolve.value_ok.2 ⟨Resolve.enum raw values, ?_, rfl⟩
    rw [Resolve.shape]
    rfl
  refine ⟨_, ofEntry_ok.2 ⟨base, name, hbase, hsuffixed, h ▸ ofSchema_ok.2 ⟨_, hvalue, rfl⟩⟩, ?_⟩
  obtain ⟨type, hresolved⟩ := (Resolve.enum raw values).ofSchema_eq raw
  rw [hresolved]
  exact ⟨_, List.mem_singleton_self _, rfl, List.mem_singleton_self name⟩

/-- Where a reference to a component schema says that it leads to a list of values, a merged enum
takes it in by its declared name. That name is a constant which is declared for the entry, if the
entry is decided to be an enum: if it is no alias, no composition and no array. -/
theorem spread_values {ctx : Context} {raw : Members} {ref : String} {name : Option String}
    {r : Resolved} (hr : (Resolve.value ctx (.reference raw ref) name).outcome = .ok r)
    (henum : r.isEnum = true) {info : Reference.Info} (hinfo : Reference.info ctx ref = .ok info)
    {key : String} (htokens : info.tokens = ["components", "schemas", key])
    (hsuffix : ctx.suffixFor "schemas" = .ok (.text "")) {es : List Components.Entry}
    (hes : Components.entries (ctx.making info.document) = .ok es) :
    Resolve.enumPart r = .spread info.name ∧
    ∃ e ∈ es, e.name = .text key ∧ e.declaredName = .ok info.name ∧
      ((∀ kind ∈ Schema.Kind.others, (Schema.ofValue e.schema).kind? ≠ some kind) →
        ∃ ds, (Definition.ofEntry (ctx.making info.document) e).outcome = .ok ds ∧
          ∃ d ∈ ds, d.name = info.name ∧ info.name ∈ d.model.constants ∧
            Text.Holds d.model.render (Model.constantHead info.name)) := by
  obtain ⟨q, hq, rfl⟩ := Resolve.value_ok.1 hr
  rw [Resolve.shape] at hq
  obtain ⟨found, target, owner, hfound, hfollow, rfl⟩ := Resolve.reference_ok hq
  obtain rfl : found = info := Except.ok.inj (hfound.symm.trans hinfo)
  obtain ⟨located, start, hlocated, hstart, hfirst⟩ := Reference.follow_ok hfollow henum
  obtain ⟨place, _, _, hplace, -, -, hplaced⟩ := Resolve.info_ok hinfo
  obtain rfl : located = place := Except.ok.inj (hlocated.symm.trans hplace)
  have hentry : ⟨.text key, located.node, .text ""⟩ ∈ es :=
    Reference.mem_entries_of_schema hes hlocated (by rw [hplaced]) (by rw [← htokens, hplaced])
  have hname : found.name = Name.pascal key ++ "" := by
    obtain ⟨suffix, hown, hname⟩ := Reference.name_of_component hinfo htokens
    obtain rfl : "" = suffix := by simpa [hsuffix, Value.text] using hown
    exact hname
  have hdeclared : (⟨.text key, located.node, .text ""⟩ : Components.Entry).declaredName =
      .ok found.name := by
    rw [hname]
    exact Components.declaredName_of_text rfl rfl
  refine ⟨rfl, _, hentry, rfl, hdeclared, fun hkind => ?_⟩
  obtain ⟨values, hvalues⟩ : ∃ values, Schema.ofValue located.node = .enum start values := by
    rw [hstart] at hkind ⊢
    rcases hfirst with href | rfl
    · exact absurd (Schema.kind_of_refOf? href) (hkind .reference (by decide))
    · exact Schema.exists_enum henum hkind
  obtain ⟨ds, hds, d, hd, hdname, hconstant⟩ := Definition.ofEntry_enum
    (ctx.making found.document) hdeclared hvalues
  exact ⟨ds, hds, d, hd, hdname, hconstant, Model.holds_render hconstant⟩

/-- A document with an enum, and with an array that lists values too. -/
def sizesDocument : Value :=
  let colors : Value := .map [(.text "enum", .list [.text "red", .text "blue"])]
  let sizes : Value := .map [(.text "type", .text "array"),
    (.text "items", .map [(.text "type", .text "string")]),
    (.text "enum", .list [.list [.text "small"]])]
  .map [(.text "components", .map [(.text "schemas", .map [
    (.text "Colors", colors), (.text "Sizes", sizes)])])]

def sizesContext : Context := .start [("/api.json", sizesDocument)] "/api.json" (.map [])

theorem spread_values_colors :
    ∃ r ds, (Resolve.value sizesContext (.reference [] "#/components/schemas/Colors") none).outcome =
        .ok r ∧ r.isEnum = true ∧ Resolve.enumPart r = .spread "Colors" ∧
      ∃ es, Components.entries sizesContext = .ok es ∧ ∃ e ∈ es, e.name = .text "Colors" ∧
        (Definition.ofEntry sizesContext e).outcome = .ok ds ∧
        ∃ d ∈ ds, Text.Holds d.model.render (Model.constantHead "Colors") := by
  obtain ⟨r, hr, henum⟩ := Except.exists_of_any
    (x := (Resolve.value sizesContext (.reference [] "#/components/schemas/Colors") none).outcome)
    (p := fun r => r.isEnum) (by decide +kernel)
  obtain ⟨info, hinfo, hat⟩ := Except.exists_of_any
    (x := Reference.info sizesContext "#/components/schemas/Colors")
    (p := fun info => decide (info.name = "Colors" ∧ info.document = "/api.json" ∧
      info.tokens = ["components", "schemas", "Colors"])) (by decide +kernel)
  obtain ⟨hname, hdocument, htokens⟩ := of_decide_eq_true hat
  obtain ⟨es, hes, hkinds⟩ := Except.exists_of_any (x := Components.entries sizesContext)
    (p := fun es => decide (∀ e ∈ es, e.name.text? = some "Colors" →
      (Schema.ofValue e.schema).kind? = some .enum)) (by decide +kernel)
  have hmaking : sizesContext.making info.document = sizesContext := by
    rw [hdocument]
    rfl
  obtain ⟨hspread, e, he, hkey, -, hdeclared⟩ := spread_values hr henum hinfo htokens rfl
    (hmaking.symm ▸ hes)
  rw [hname] at hspread hdeclared
  rw [hmaking] at hdeclared
  obtain ⟨ds, hds, d, hd, -, -, htext⟩ := hdeclared fun kind hkind heq => by
    rw [of_decide_eq_true hkinds e he (by rw [hkey]; rfl), Option.some.injEq] at heq
    subst heq
    exact absurd hkind (by decide)
  exact ⟨r, ds, hr, henum, hspread, es, hes, e, he, hkey, hds, d, hd, htext⟩

/-- The values that an array lists are found behind a reference to it, but it is declared as an
array. -/
theorem spread_values_array :
    ∃ r es, (Resolve.value sizesContext (.reference [] "#/components/schemas/Sizes") none).outcome =
        .ok r ∧ r.isEnum = true ∧ Components.entries sizesContext = .ok es ∧
      ∃ e ∈ es, e.name.text? = some "Sizes" ∧
        ∃ ds, (Definition.ofEntry sizesContext e).outcome = .ok ds ∧
          ∀ d ∈ ds, d.model.constants = [] ∧ Text.contains d.model.render "export const" = false := by
  obtain ⟨r, hr, henum⟩ := Except.exists_of_any
    (x := (Resolve.value sizesContext (.reference [] "#/components/schemas/Sizes") none).outcome)
    (p := fun r => r.isEnum) (by decide +kernel)
  obtain ⟨es, hes, hfound⟩ := Except.exists_of_any (x := Components.entries sizesContext)
    (p := fun es => decide (∃ e ∈ es, e.name.text? = some "Sizes" ∧
      ((Definition.ofEntry sizesContext e).outcome.toOption.any fun ds => decide (∀ d ∈ ds,
        d.model.constants = [] ∧ Text.contains d.model.render "export const" = false)) = true))
    (by decide +kernel)
  obtain ⟨e, he, hname, hdeclared⟩ := of_decide_eq_true hfound
  obtain ⟨ds, hds, hnone⟩ := Except.exists_of_any hdeclared
  exact ⟨r, es, hr, henum, hes, e, he, hname, ds, hds, of_decide_eq_true hnone⟩

end ApiTypes

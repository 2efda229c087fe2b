import ApiTypes.Proofs.CrossImports
import ApiTypes.Proofs.Pointers

/-!
# Names of references and of declarations

The name of a component is made twice: from the pointer of a reference to it, with the suffix of its
type, and from its key, with the suffix of its entry.

* `Config.suffixOf`, `Config.suffixFor_overrides` : the suffixes that a configuration puts in force;
* `Components.Entry.Under` : the entries of the components of one type;
* `reference_names` : a reference to a component has the name of its declaration, unless it is a
  schema and a suffix is set for schemas;
* `reference_names_suffixed` : a configuration that sets one.
-/

namespace ApiTypes

/-! ## Suffixes in force -/

/-- The suffix that a configuration sets for a type of components; without one, none is added. -/
def Config.suffixOf (c : Config) (componentType : String) : String :=
  (Keyed.get? c.suffixes componentType).getD ""

/-- The setting of a suffix, as overrides hold it. -/
def Config.suffixSetting (suffix : String) : Value := .map [(.text "suffix", .text suffix)]

/-- The settings of all suffixes. -/
def Config.suffixSettings (c : Config) : Members :=
  c.suffixes.map fun s => (.text s.1, suffixSetting s.2)

theorem Config.field?_suffixSettings (c : Config) (componentType : String) :
    Members.field? c.suffixSettings componentType =
      (Keyed.get? c.suffixes componentType).map suffixSetting := by
  unfold suffixSettings
  induction c.suffixes with
  | nil => rfl
  | cons s rest ih =>
    obtain ⟨key, suffix⟩ := s
    by_cases h : key = componentType
    · simp [Members.field?, Members.get?, Atom.same, Keyed.get?, h]
    · simpa [Members.field?, Members.get?, Atom.same, Keyed.get?, h] using ih

theorem Config.suffixFor_overrides (c : Config) {ctx : Context} (h : ctx.overrides = c.overrides)
    (componentType : String) :
    ctx.suffixFor componentType = .ok (.text (c.suffixOf componentType)) := by
  have hoverrides : ctx.overrides = .map [(.text "components", .map c.suffixSettings)] := h
  have hcomponents : Form.optionalMapping
      (Members.field? [(.text "components", .map c.suffixSettings)] "components") =
      .ok c.suffixSettings :=
    Form.mapping_ok.2 (Value.orEmpty_map _)
  unfold Context.suffixFor
  rw [hoverrides]
  change (Form.optionalMapping (Members.field? [(.text "components", _)] "components") >>= _) = _
  rw [hcomponents]
  change (Form.optionalMapping (Members.field? c.suffixSettings componentType) >>= _) = _
  rw [field?_suffixSettings, suffixOf]
  cases Keyed.get? c.suffixes componentType <;> rfl

/-! ## Entries under keys -/

namespace Components

/-- The entry of the component of some type under a text, if it is declared: a schema is, and a
response or a request body with a JSON schema. -/
inductive Entry.Under (ctx : Context) : String → String → Entry → Prop
  | schema {document components schemas : Members} {key : String} {v : Value}
      (hdocument : ctx.document = .map document)
      (hcomponents : document.field? "components" = some (.map components))
      (hschemas : components.field? "schemas" = some (.map schemas))
      (hkey : schemas.field? key = some v) : Under ctx "schemas" key ⟨.text key, v, .text ""⟩
  | content {document components ms : Members} {componentType key : String}
      {component schema suffix : Value} (hdocument : ctx.document = .map document)
      (hcomponents : document.field? "components" = some (.map components))
      (htype : componentType ∈ contentTypes)
      (hms : components.field? componentType = some (.map ms))
      (hkey : ms.field? key = some component) (hschema : jsonSchema? component = .ok (some schema))
      (hsuffix : ctx.suffixFor componentType = .ok suffix) :
      Under ctx componentType key ⟨.text key, schema, suffix⟩

variable {ctx : Context} {componentType key : String} {e : Entry}

/-- The mapping that holds a component, on the way to it from its document. -/
theorem Entry.Under.walk_ok (h : e.Under ctx componentType key) :
    ∃ (document : Members) (node : Value), ctx.document = .map document ∧
      document.field? "components" ≠ none ∧
      Pointer.walk (.map document) ["components", componentType, key] = .ok node := by
  have hwalk {document components ms : Members} {v : Value}
      (hcomponents : document.field? "components" = some (.map components))
      (hms : components.field? componentType = some (.map ms)) (hkey : ms.field? key = some v) :
      Pointer.walk (.map document) ["components", componentType, key] = .ok v := by
    rw [Pointer.walk_of_field? (v := .map document) hcomponents,
      Pointer.walk_of_field? (v := .map components) hms, Pointer.walk_of_field? (v := .map ms) hkey]
    rfl
  cases h with
  | schema hdocument hcomponents hschemas hkey =>
    exact ⟨_, _, hdocument, by simp [hcomponents], hwalk hcomponents hschemas hkey⟩
  | content hdocument hcomponents _ hms hkey =>
    exact ⟨_, _, hdocument, by simp [hcomponents], hwalk hcomponents hms hkey⟩

/-- Such an entry is one of its document. -/
theorem Entry.Under.mem_entries (h : e.Under ctx componentType key) {es : List Entry}
    (hes : entries ctx = .ok es) : e ∈ es := by
  cases h with
  | schema hdocument hcomponents hschemas hkey =>
    obtain ⟨schemas, others, hfound, -, rfl⟩ := entries_ok_of_components hdocument hcomponents hes
    rw [hschemas, Form.optionalMapping, Value.orEmpty_map, Form.mapping_ok] at hfound
    obtain rfl := Value.map.inj hfound
    exact List.mem_append_left _ (mem_schemaEntries hkey)
  | content hdocument hcomponents htype hms hkey hschema hsuffix =>
    obtain ⟨schemas, others, -, hothers, rfl⟩ :=
      entries_ok_of_components hdocument hcomponents hes
    obtain ⟨parts, hparts, rfl⟩ := entriesOfTypes_ok hothers
    obtain ⟨own, hown, suffix, found, hsuffix', hfound, hentries⟩ :=
      exists_right_of_forall₂ hparts htype
    rw [hms, Form.optionalMapping, Value.orEmpty_map, Form.mapping_ok] at hfound
    obtain rfl := Value.map.inj hfound
    obtain rfl := Except.ok.inj (hsuffix'.symm.trans hsuffix)
    have hentry := (mem_contentEntries hentries).2
      ⟨_, Members.exists_of_field? hkey, _, hschema, rfl⟩
    exact List.mem_append_right _ (List.mem_flatten.2 ⟨_, hown, hentry⟩)

/-- Its declared name has the suffix of its type, except that schemas have none. -/
theorem Entry.Under.declaredName (h : e.Under ctx componentType key) {config : Config}
    (hoverrides : ctx.overrides = config.overrides) :
    e.declaredName = .ok (Name.pascal key ++
      if componentType = "schemas" then "" else config.suffixOf componentType) := by
  cases h with
  | schema => exact declaredName_of_text rfl rfl
  | content _ _ htype _ _ _ hsuffix =>
    have hne : componentType ≠ "schemas" := by
      rintro rfl
      exact absurd htype (by decide)
    rw [config.suffixFor_overrides hoverrides] at hsuffix
    rw [if_neg hne]
    exact declaredName_of_text rfl (Except.ok.inj hsuffix).symm

end Components

/-! ## References to components -/

theorem Registry.document?_of_document {documents : Registry} {key : String} {document : Members}
    (h : documents.document key = .map document) (hne : document ≠ []) :
    documents.document? key = some (.map document) := by
  unfold Registry.document Value.orEmpty at h
  split at h
  · rename_i v hv
    split_ifs at h
    · exact hv.trans (congrArg some h)
    · exact absurd (Value.map.inj h).symm hne
  · exact absurd (Value.map.inj h).symm hne

namespace Reference

variable {ctx : Context} {ref part pointer key : String}

/-- A reference whose pointer leads on in a loaded document is found. -/
theorem locate_of_walk {document node : Value} (hsplit : Pointer.split ref = (part, pointer))
    (hkey : documentKey ctx part = .ok key) (hdocument : ctx.registry.document? key = some document)
    (hwalk : Pointer.walk document (Pointer.tokens pointer) = .ok node) :
    locate ctx ref = .ok ⟨key, pointer, node⟩ := by
  unfold locate Pointer.resolve
  rw [hsplit]
  refine Except.bind_eq_ok.2 ⟨key, hkey, ?_⟩
  rw [hdocument]
  dsimp only
  rw [hwalk]
  rfl

/-- A pointer that leads to a component stands for its name with the suffix of its type. -/
theorem info_of_component {config : Config} (hoverrides : ctx.overrides = config.overrides)
    {located : Located} (hlocated : locate ctx ref = .ok located) {componentType name : String}
    (htokens : Pointer.tokens located.pointer = ["components", componentType, name]) :
    ∃ info, Reference.info ctx ref = .ok info ∧ info.document = located.document ∧
      info.name = Name.pascal name ++ config.suffixOf componentType := by
  have hsuffix := config.suffixFor_overrides hoverrides componentType
  refine ⟨⟨Name.pascal name ++ config.suffixOf componentType, name, located.document,
    located.pointer, Pointer.tokens located.pointer⟩, ?_, rfl, rfl⟩
  unfold Reference.info
  rw [hlocated]
  change (originalName ref (Pointer.tokens located.pointer) >>= _) = _
  rw [htokens]
  change (ctx.suffixFor componentType >>= _) = _
  rw [hsuffix]
  rfl

end Reference

/-- A reference to a declared component of a document, however its key is escaped and wherever it is
read, is found and stands for the name of the declaration, just when the component is no schema or
no suffix is set for schemas: a schema is declared without it. -/
theorem reference_names {documents : Registry} {config : Config} {key componentType name : String}
    {ds : List Declaration} {e : Components.Entry}
    (hds : (Definition.ofDocument (.start documents key config.overrides)).outcome = .ok ds)
    (he : e.Under (.start documents key config.overrides) componentType name)
    {ctx : Context} (hregistry : ctx.registry = documents)
    (hoverrides : ctx.overrides = config.overrides) {ref part pointer : String}
    (hsplit : Pointer.split ref = (part, pointer))
    (hkey : Reference.documentKey ctx part = .ok key)
    (hpointer : Pointer.tokens pointer = ["components", componentType, name]) :
    Pointer.tokens (Pointer.written ["components", componentType, name]) =
      ["components", componentType, name] ∧
    ∃ info d, Reference.info ctx ref = .ok info ∧ info.document = key ∧ d ∈ ds ∧
      e.declaredName = .ok d.name ∧
      (info.name = d.name ↔ (componentType = "schemas" → config.suffixOf "schemas" = "")) := by
  refine ⟨Pointer.tokens_written _, ?_⟩
  obtain ⟨document, node, hdocument, hcomponents, hwalk⟩ := he.walk_ok
  have hloaded : ctx.registry.document? key = some (.map document) := by
    refine hregistry ▸ Registry.document?_of_document hdocument ?_
    rintro rfl
    exact hcomponents rfl
  have hlocated := Reference.locate_of_walk hsplit hkey hloaded (hpointer ▸ hwalk)
  obtain ⟨info, hinfo, hplace, hname⟩ :=
    Reference.info_of_component hoverrides hlocated hpointer
  have hdeclared := he.declaredName
    (show (Context.start documents key config.overrides).overrides = config.overrides from rfl)
  obtain ⟨entries, results, hentries, hresults, rfl⟩ := Definition.ofDocument_ok.1 hds
  obtain ⟨own, hown, hentry⟩ := exists_right_of_forall₂ hresults (he.mem_entries hentries)
  obtain ⟨d, hd, hdname⟩ := (Definition.ofEntry_names hentry _).2 (.own hdeclared)
  refine ⟨info, d, hinfo, hplace, List.mem_flatten.2 ⟨own, hown, hd⟩, hdname ▸ hdeclared, ?_⟩
  rw [hname, hdname, String.append_right_inj]
  by_cases htype : componentType = "schemas"
  · rw [if_pos htype, htype]
    simp
  · rw [if_neg htype]
    simp [htype]

/-- A document with a schema, and with a response whose key needs escapes. -/
def escapedDocument : Value :=
  let text : Value := .map [(.text "type", .text "string")]
  let json : Value := .map [(.text "content", .map [
    (.text "application/json", .map [(.text "schema", text)])])]
  .map [(.text "components", .map [
    (.text "schemas", .map [(.text "Pet", text)]),
    (.text "responses", .map [(.text "a/b~c%d", json)])])]

def escapedRegistry : Registry := [("/api.json", escapedDocument)]

theorem reference_names_escaped :
    ∃ info ds d, Reference.info ⟨escapedRegistry, "/parts/pet.json", "/parts/pet.json",
        apiConfig.overrides, []⟩ "../api.json#/components/responses/a~1b~0c%25d" = .ok info ∧
      (Definition.ofDocument (.start escapedRegistry "/api.json" apiConfig.overrides)).outcome =
        .ok ds ∧
      d ∈ ds ∧ d.name = "ABCDResponse" ∧ info.name = d.name := by
  obtain ⟨ds, hds, -⟩ := Except.exists_of_any
    (x := (Definition.ofDocument (.start escapedRegistry "/api.json" apiConfig.overrides)).outcome)
    (p := fun _ => true) (by decide +kernel)
  have he : Components.Entry.Under (.start escapedRegistry "/api.json" apiConfig.overrides)
      "responses" "a/b~c%d" ⟨.text "a/b~c%d", .map [(.text "type", .text "string")],
        .text "Response"⟩ :=
    .content rfl rfl (by decide) rfl rfl (by rfl) rfl
  let ctx : Context :=
    ⟨escapedRegistry, "/parts/pet.json", "/parts/pet.json", apiConfig.overrides, []⟩
  obtain ⟨-, info, d, hinfo, -, hd, hname, hsame⟩ := reference_names hds he
    (show ctx.registry = escapedRegistry from rfl) rfl
    (show Pointer.split "../api.json#/components/responses/a~1b~0c%25d" =
      ("../api.json", "/components/responses/a~1b~0c%25d") by decide +kernel)
    (by decide +kernel) (by decide +kernel)
  refine ⟨info, ds, d, hinfo, hds, hd, ?_, hsame.2 (by decide)⟩
  have hcased : Name.pascal "a/b~c%d" ++ "Response" = "ABCDResponse" := by decide +kernel
  rw [Components.declaredName_of_text rfl rfl, hcased] at hname
  exact (Except.ok.inj hname).symm

/-- The settings of a run with a suffix for schemas. -/
def suffixedSettings : Members :=
  [(.text "input", .text "/api.json"), (.text "suffixes", .map [(.text "schemas", .text "Model")])]

/-- With a suffix for schemas, a reference to a schema stands for a name with it, and the schema is
declared without it. -/
theorem reference_names_suffixed :
    ∃ config, Config.ofMembers "." none suffixedSettings = .ok config ∧
      ∃ (ds : List Declaration) (e : Components.Entry),
        (Definition.ofDocument (.start escapedRegistry "/api.json" config.overrides)).outcome =
          .ok ds ∧
        e.Under (.start escapedRegistry "/api.json" config.overrides) "schemas" "Pet" ∧
        e.declaredName = .ok "Pet" ∧ (∃ d ∈ ds, d.name = "Pet") ∧
        ∃ info, Reference.info (.start escapedRegistry "/api.json" config.overrides)
            "#/components/schemas/Pet" = .ok info ∧
          info.document = "/api.json" ∧ info.name = "PetModel" ∧ ∀ d ∈ ds, d.name ≠ info.name := by
  let config : Config := ⟨"/api.json", "generated", [("responses", "Response"),
    ("requestBodies", "Body"), ("schemas", "Model")], true⟩
  obtain ⟨ds, hds, hnames⟩ := Except.exists_of_any
    (x := (Definition.ofDocument (.start escapedRegistry "/api.json" config.overrides)).outcome)
    (p := fun ds => decide ((∃ d ∈ ds, d.name = "Pet") ∧ ∀ d ∈ ds, d.name ≠ "PetModel"))
    (by decide +kernel)
  obtain ⟨info, hinfo, hplace⟩ := Except.exists_of_any
    (x := Reference.info (.start escapedRegistry "/api.json" config.overrides)
      "#/components/schemas/Pet")
    (p := fun info => decide (info.document = "/api.json" ∧ info.name = "PetModel"))
    (by decide +kernel)
  obtain ⟨hdeclared, hmissing⟩ := of_decide_eq_true hnames
  obtain ⟨hdocument, hname⟩ := of_decide_eq_true hplace
  have hcased : Name.pascal "Pet" ++ "" = "Pet" := by decide +kernel
  exact ⟨config, by decide +kernel, ds, _, hds, .schema rfl rfl rfl rfl,
    hcased ▸ Components.declaredName_of_text rfl rfl, hdeclared, info, hinfo, hdocument, hname,
    hname ▸ hmissing⟩

end ApiTypes

import ApiTypes.Components
import ApiTypes.Proofs.Names

/-!
# What references lead to

A reference stands for a name wherever it leads, but only some of what is in a document is declared.

* `Components.Entry.declaredName` : the name under which an entry of a document is declared;
* `Components.entries_ok_of_components`, `Components.entries_ok_of_bare` : the entries of a document
  with components and of one without;
* `Reference.Info.OfEntry` : the references that lead to entries, whose names are those of the
  entries (`Reference.exists_entry`).
-/

namespace ApiTypes

/-! ## Steps into documents -/

theorem Atom.eq_text_of_same {a : Atom} {s : String} (h : a.same (.text s) = true) :
    a = .text s := by
  cases a with
  | text t => simpa [same] using h
  | _ => simp [same, compareNumbers?, int?] at h

theorem Members.exists_of_field? {ms : Members} {key : String} {v : Value}
    (h : ms.field? key = some v) : (.text key, v) ∈ ms := by
  obtain ⟨m, hm, rfl⟩ := Option.map_eq_some_iff.1 h
  obtain ⟨a, w⟩ := m
  have hsame : a.same (.text key) = true := by simpa using List.find?_some hm
  obtain rfl := Atom.eq_text_of_same hsame
  exact List.mem_of_find?_eq_some hm

theorem Pointer.step_map {ms : Members} {w : Value} {token : String}
    (h : step (.map ms) token = .ok w) : Members.field? ms token = some w := by
  rw [step] at h
  split at h
  · rename_i hfield
    exact hfield.trans (congrArg some (Except.ok.inj h))
  · cases h

/-- A token that is no position leads into a mapping. -/
theorem Pointer.step_ok {v w : Value} {token : String} (h : step v token = .ok w)
    (htoken : token.toList.all Text.isDigit = false) :
    ∃ ms, v = .map ms ∧ Members.field? ms token = some w := by
  cases v with
  | map ms => exact ⟨ms, rfl, step_map h⟩
  | list items => simp [step, htoken] at h
  | atom a => simp [step] at h

theorem Pointer.walk_cons {v w : Value} {token : String} {rest : List String}
    (h : walk v (token :: rest) = .ok w) : ∃ u, step v token = .ok u ∧ walk u rest = .ok w := by
  rw [walk] at h
  cases hstep : step v token with
  | error e =>
    rw [hstep] at h
    cases h
  | ok u =>
    rw [hstep] at h
    exact ⟨u, rfl, h⟩

theorem Pointer.step_of_field? {v w : Value} {token : String} (h : v.field? token = some w) :
    step v token = .ok w := by
  cases v with
  | map ms =>
    have hfield : Members.field? ms token = some w := h
    rw [step, hfield]
  | list items => cases h
  | atom a => cases h

theorem Pointer.walk_of_field? {v w : Value} {token : String} (h : v.field? token = some w)
    (tokens : List String) : walk v (token :: tokens) = walk w tokens := by
  rw [walk, step_of_field? h]
  rfl

/-- Where a step leads on, a place that may be left out is a mapping. -/
theorem Pointer.step_optional {v w : Value} {token : String} {ms : Members}
    (hms : Form.optionalMapping (some v) = .ok ms) (h : step v token = .ok w) :
    v = .map ms ∧ Members.field? ms token = some w := by
  cases v with
  | map members =>
    obtain rfl : members = ms := by simpa [Form.optionalMapping, Form.mapping] using hms
    exact ⟨rfl, step_map h⟩
  | list items =>
    cases items with
    | nil =>
      rw [step] at h
      split at h
      · split at h
        · split at h
          · cases h
          · simp at h
        · cases h
      · cases h
    | cons item items =>
      simp [Form.optionalMapping, Value.orEmpty, Value.isTrue, Form.mapping, Form.fail] at hms
  | atom a => simp [step] at h

/-- What a reference leads to is in a document that is loaded. -/
theorem Reference.locate_ok {ctx : Context} {ref : String} {located : Located}
    (h : locate ctx ref = .ok located) :
    ∃ document, ctx.registry.document? located.document = some document ∧
      Pointer.walk document (Pointer.tokens located.pointer) = .ok located.node := by
  unfold locate at h
  obtain ⟨key, -, h⟩ := Except.bind_eq_ok.1 h
  split at h
  · simp [unresolved] at h
  · rename_i document hdocument
    split at h
    · rename_i node hnode
      obtain rfl := by simpa [pure, Except.pure] using h
      exact ⟨document, hdocument, hnode⟩
    · simp [unresolved] at h
    · simp [Form.fail] at h

/-- A reference names the document and the pointer that it leads to. -/
theorem Reference.locate_parts {ctx : Context} {ref : String} {located : Located}
    (h : locate ctx ref = .ok located) :
    documentKey ctx (Pointer.split ref).1 = .ok located.document ∧
      located.pointer = (Pointer.split ref).2 := by
  unfold locate at h
  obtain ⟨key, hkey, h⟩ := Except.bind_eq_ok.1 h
  split at h
  · simp [unresolved] at h
  · split at h
    · obtain rfl := by simpa [pure, Except.pure] using h
      exact ⟨hkey, rfl⟩
    · simp [unresolved] at h
    · simp [Form.fail] at h

/-- The place and the name that a reference stands for. -/
theorem Reference.info_reads {ctx : Context} {ref : String} {info : Info}
    (h : Reference.info ctx ref = .ok info) :
    ∃ document located original suffix,
      ctx.registry.document? info.document = some document ∧ locate ctx ref = .ok located ∧
      Pointer.walk document info.tokens = .ok located.node ∧
      originalName ref info.tokens = .ok original ∧
      suffixOf ctx info.tokens = .ok (.text suffix) ∧ info.name = Name.pascal original ++ suffix := by
  obtain ⟨located, original, suffix, hlocated, horiginal, hsuffix, rfl⟩ := Resolve.info_ok h
  obtain ⟨document, hdocument, hwalk⟩ := locate_ok hlocated
  exact ⟨document, located, original, suffix, hdocument, hlocated, hwalk, horiginal, hsuffix, rfl⟩

namespace Components

/-! ## The names of entries -/

/-- The name under which an entry is declared. -/
def Entry.declaredName (e : Entry) : Except Fault String := do
  Form.suffixed (← Form.pascal e.name) e.suffix

theorem declaredName_of_text {key suffix : String} {e : Entry} (hname : e.name = .text key)
    (hsuffix : e.suffix = .text suffix) : e.declaredName = .ok (Name.pascal key ++ suffix) := by
  unfold Entry.declaredName
  rw [hname, hsuffix]
  rfl

theorem mem_schemaEntries {ms : Members} {key : String} {v : Value} (h : ms.field? key = some v) :
    ⟨.text key, v, .text ""⟩ ∈ schemaEntries ms :=
  List.mem_map.2 ⟨_, Members.exists_of_field? h, rfl⟩

/-- The entries of some responses or bodies are those with a JSON schema. -/
theorem mem_contentEntries {suffix : Value} {ms : Members} {entries : List Entry}
    (h : contentEntries suffix ms = .ok entries) {e : Entry} :
    e ∈ entries ↔
      ∃ m ∈ ms, ∃ s, jsonSchema? m.2 = .ok (some s) ∧ e = ⟨.atom m.1, s, suffix⟩ := by
  induction ms generalizing entries with
  | nil =>
    obtain rfl : [] = entries := by simpa [contentEntries] using h
    simp
  | cons m rest ih =>
    obtain ⟨name, component⟩ := m
    rw [contentEntries] at h
    obtain ⟨schema, hschema, h⟩ := Except.bind_eq_ok.1 h
    obtain ⟨later, hlater, h⟩ := Except.bind_eq_ok.1 h
    obtain rfl := by simpa [pure, Except.pure] using h
    rw [List.mem_append, ih hlater, List.exists_mem_cons_iff, hschema]
    refine or_congr_left ?_
    cases schema <;> simp

/-- The entries of the components of some types are those of one type after another. -/
theorem entriesOfTypes_ok {ctx : Context} {components : Members} {types : List String}
    {entries : List Entry} (h : entriesOfTypes ctx components types = .ok entries) :
    ∃ parts, List.Forall₂ (fun componentType own => ∃ suffix ms,
        ctx.suffixFor componentType = .ok suffix ∧
        Form.optionalMapping (components.field? componentType) = .ok ms ∧
        contentEntries suffix ms = .ok own) types parts ∧
      entries = parts.flatten := by
  induction types generalizing entries with
  | nil =>
    obtain rfl : [] = entries := by simpa [entriesOfTypes] using h
    exact ⟨[], .nil, rfl⟩
  | cons componentType rest ih =>
    rw [entriesOfTypes] at h
    obtain ⟨suffix, hsuffix, h⟩ := Except.bind_eq_ok.1 h
    obtain ⟨ms, hms, h⟩ := Except.bind_eq_ok.1 h
    obtain ⟨own, hown, h⟩ := Except.bind_eq_ok.1 h
    obtain ⟨later, hlater, h⟩ := Except.bind_eq_ok.1 h
    obtain ⟨parts, hparts, rfl⟩ := ih hlater
    exact ⟨own :: parts, .cons ⟨suffix, ms, hsuffix, hms, hown⟩ hparts,
      by simpa [pure, Except.pure] using h.symm⟩

/-- The entries of a document with components. -/
theorem entries_ok_of_components {ctx : Context} {document components : Members}
    {es : List Entry} (hdocument : ctx.document = .map document)
    (hcomponents : document.field? "components" = some (.map components))
    (h : entries ctx = .ok es) :
    ∃ schemas others, Form.optionalMapping (components.field? "schemas") = .ok schemas ∧
      entriesOfTypes ctx components contentTypes = .ok others ∧
      es = schemaEntries schemas ++ others := by
  unfold entries at h
  rw [hdocument] at h
  obtain ⟨ms, hms, h⟩ := Except.bind_eq_ok.1 h
  obtain rfl : document = ms := Value.map.inj (Form.mapping_ok.1 hms)
  rw [hcomponents] at h
  obtain ⟨schemas, hschemas, h⟩ := Except.bind_eq_ok.1 h
  obtain ⟨others, hothers, h⟩ := Except.bind_eq_ok.1 h
  exact ⟨schemas, others, hschemas, hothers, by simpa [pure, Except.pure] using h.symm⟩

/-- The schemas that a document without components defines. -/
def definitions (document : Members) : List Entry :=
  definitionKeys.flatMap fun key =>
    schemaEntries (((document.field? key).bind Value.members?).getD [])

/-- The entries of a document without components. -/
theorem entries_ok_of_bare {ctx : Context} {document : Members} {es : List Entry}
    (hdocument : ctx.document = .map document)
    (hbare : ∀ components, document.field? "components" ≠ some (.map components))
    (h : entries ctx = .ok es) :
    if (definitions document).isEmpty && schemaHints.any (Members.has document) then
      ∃ name, Reference.documentName (Pointer.split ctx.current).1 = .ok name ∧
        es = [⟨.text name, .map document, .text ""⟩]
    else es = definitions document := by
  unfold entries at h
  rw [hdocument] at h
  obtain ⟨ms, hms, h⟩ := Except.bind_eq_ok.1 h
  obtain rfl : document = ms := Value.map.inj (Form.mapping_ok.1 hms)
  split at h
  · rename_i components hcomponents
    exact absurd hcomponents (hbare components)
  · change (if (definitions document).isEmpty && schemaHints.any (Members.has document) then _
      else _) = _ at h
    split
    · rename_i hwhole
      rw [if_pos hwhole] at h
      obtain ⟨name, hname, h⟩ := Except.bind_eq_ok.1 h
      exact ⟨name, hname, by simpa [pure, Except.pure] using h.symm⟩
    · rename_i hwhole
      rw [if_neg hwhole] at h
      exact (Except.ok.inj h).symm

end Components

/-! ## References to entries -/

/-- A reference that leads to an entry of its document, and has the name of it: to a component
schema, if their names get no suffix, to a response or a body with a JSON schema, to a definition of
a document without components, or to such a document that is one schema. -/
inductive Reference.Info.OfEntry (ctx : Context) (ref : String) (info : Reference.Info) : Prop
  | schema (key : String) (htokens : info.tokens = ["components", "schemas", key])
      (hsuffix : ctx.suffixFor "schemas" = .ok (.text ""))
  | content (componentType key : String) (located : Located) (schema : Value)
      (htype : componentType ∈ Components.contentTypes)
      (htokens : info.tokens = ["components", componentType, key])
      (hlocated : locate ctx ref = .ok located)
      (hschema : Components.jsonSchema? located.node = .ok (some schema))
  | definition (document definitions : Members) (word key : String)
      (hdocument : ctx.registry.document? info.document = some (.map document))
      (hbare : ∀ components, document.field? "components" ≠ some (.map components))
      (hword : word ∈ Components.definitionKeys)
      (hdefinitions : document.field? word = some (.map definitions))
      (htokens : info.tokens = [word, key])
  | whole (document : Members)
      (hdocument : ctx.registry.document? info.document = some (.map document))
      (hbare : ∀ components, document.field? "components" ≠ some (.map components))
      (hnone : Components.definitions document = [])
      (hhints : Components.schemaHints.any (Members.has document) = true)
      (htokens : info.tokens = [])
      (hname : documentName (Pointer.split ref).1 = documentName (Pointer.split info.document).1)

/-- The context in which the declarations of a document are made. -/
def Context.making (ctx : Context) (key : String) : Context :=
  .start ctx.registry key ctx.overrides

theorem Context.document_making {ctx : Context} {key : String} {document : Members}
    (h : ctx.registry.document? key = some (.map document)) :
    (ctx.making key).document = .map document := by
  change Value.orEmpty (ctx.registry.document? key) = _
  rw [h, Value.orEmpty_map]

namespace Reference

variable {ctx : Context} {ref : String}

/-- What a reference into components passes on its way. -/
theorem components_ok {document node : Value} {componentType key : String}
    (htype : componentType.toList.all Text.isDigit = false)
    (h : Pointer.walk document ["components", componentType, key] = .ok node) :
    ∃ (ms components : Members) (container : Value), document = .map ms ∧
      Members.field? ms "components" = some (.map components) ∧
      Members.field? components componentType = some container ∧
      Pointer.step container key = .ok node := by
  obtain ⟨u, hu, h⟩ := Pointer.walk_cons h
  obtain ⟨container, hcontainer, h⟩ := Pointer.walk_cons h
  obtain ⟨w, hw, h⟩ := Pointer.walk_cons h
  obtain rfl : w = node := by simpa [Pointer.walk] using h
  obtain ⟨ms, rfl, hms⟩ := Pointer.step_ok hu (by decide)
  obtain ⟨components, rfl, hcomponents⟩ := Pointer.step_ok hcontainer htype
  exact ⟨ms, components, container, rfl, hms, hcomponents, hw⟩

/-- The name of what a pointer into components leads to. -/
theorem name_of_component {info : Info} (h : Reference.info ctx ref = .ok info)
    {componentType key : String} (htokens : info.tokens = ["components", componentType, key]) :
    ∃ suffix, ctx.suffixFor componentType = .ok (.text suffix) ∧
      info.name = Name.pascal key ++ suffix := by
  obtain ⟨-, -, original, suffix, -, -, -, horiginal, hsuffix, hname⟩ := info_reads h
  rw [htokens] at horiginal hsuffix
  obtain rfl : key = original := by simpa [originalName] using horiginal
  exact ⟨suffix, hsuffix, hname⟩

/-- What a pointer to a component schema leads to is an entry of its document. -/
theorem mem_entries_of_schema {document : String} {es : List Components.Entry}
    (hes : Components.entries (ctx.making document) = .ok es) {located : Located} {key : String}
    (hlocated : locate ctx ref = .ok located) (hdocument : located.document = document)
    (htokens : Pointer.tokens located.pointer = ["components", "schemas", key]) :
    ⟨.text key, located.node, .text ""⟩ ∈ es := by
  obtain ⟨loaded, hloaded, hwalk⟩ := locate_ok hlocated
  rw [hdocument] at hloaded
  rw [htokens] at hwalk
  obtain ⟨ms, components, container, rfl, hms, hcontainer, hstep⟩ := components_ok (by decide) hwalk
  obtain ⟨schemas, others, hschemas, -, rfl⟩ := Components.entries_ok_of_components
    (Context.document_making hloaded) hms hes
  rw [hcontainer] at hschemas
  obtain ⟨rfl, hfield⟩ := Pointer.step_optional hschemas hstep
  exact List.mem_append_left _ (Components.mem_schemaEntries hfield)

section
variable {info : Info} (h : Reference.info ctx ref = .ok info) {es : List Components.Entry}
  (hes : Components.entries (ctx.making info.document) = .ok es)
include h hes

theorem exists_schema_entry {key : String} (htokens : info.tokens = ["components", "schemas", key])
    (hnone : ctx.suffixFor "schemas" = .ok (.text "")) :
    ∃ e ∈ es, e.declaredName = .ok info.name := by
  obtain ⟨suffix, hsuffix, hname⟩ := name_of_component h htokens
  obtain ⟨located, _, _, hlocated, -, -, hinfo⟩ := Resolve.info_ok h
  have hpointer : Pointer.tokens located.pointer = ["components", "schemas", key] := by
    rw [← htokens, hinfo]
  refine ⟨_, mem_entries_of_schema hes hlocated (by rw [hinfo]) hpointer, ?_⟩
  obtain rfl : "" = suffix := by simpa [hnone, Value.text] using hsuffix
  rw [hname]
  exact Components.declaredName_of_text rfl rfl

theorem exists_content_entry {componentType key : String} {located : Located} {schema : Value}
    (htype : componentType ∈ Components.contentTypes)
    (htokens : info.tokens = ["components", componentType, key])
    (hlocated : locate ctx ref = .ok located)
    (hschema : Components.jsonSchema? located.node = .ok (some schema)) :
    ∃ e ∈ es, e.declaredName = .ok info.name := by
  obtain ⟨document, located', -, -, hdocument, hlocated', hwalk, -⟩ := info_reads h
  obtain rfl : located = located' := Except.ok.inj (hlocated.symm.trans hlocated')
  obtain ⟨suffix, hsuffix, hname⟩ := name_of_component h htokens
  have hdigits : ∀ t ∈ Components.contentTypes, t.toList.all Text.isDigit = false := by decide
  rw [htokens] at hwalk
  obtain ⟨ms, components, container, rfl, hms, hcontainer, hstep⟩ :=
    components_ok (hdigits componentType htype) hwalk
  obtain ⟨schemas, others, -, hothers, rfl⟩ := Components.entries_ok_of_components
    (Context.document_making hdocument) hms hes
  obtain ⟨parts, hparts, rfl⟩ := Components.entriesOfTypes_ok hothers
  obtain ⟨ownEntries, hpart, suffix', own, hsuffix', hown, hentries⟩ :=
    exists_right_of_forall₂ hparts htype
  rw [hcontainer] at hown
  obtain ⟨rfl, hfield⟩ := Pointer.step_optional hown hstep
  obtain rfl : suffix' = .text suffix := Except.ok.inj (hsuffix'.symm.trans hsuffix)
  have hentry := (Components.mem_contentEntries hentries).2
    ⟨_, Members.exists_of_field? hfield, schema, hschema, rfl⟩
  refine ⟨_, List.mem_append_right _ (List.mem_flatten.2 ⟨_, hpart, hentry⟩), ?_⟩
  rw [hname]
  exact Components.declaredName_of_text rfl rfl

theorem exists_definition_entry {document definitions : Members} {word key : String}
    (hdocument : ctx.registry.document? info.document = some (.map document))
    (hbare : ∀ components, document.field? "components" ≠ some (.map components))
    (hword : word ∈ Components.definitionKeys)
    (hdefinitions : document.field? word = some (.map definitions))
    (htokens : info.tokens = [word, key]) : ∃ e ∈ es, e.declaredName = .ok info.name := by
  obtain ⟨document', located, original, suffix, hdocument', -, hwalk, horiginal, hsuffix, hname⟩ :=
    info_reads h
  obtain rfl : .map document = document' := Option.some.inj (hdocument.symm.trans hdocument')
  have hes := Components.entries_ok_of_bare (Context.document_making hdocument) hbare hes
  have hdigits : ∀ t ∈ Components.definitionKeys, t.toList.all Text.isDigit = false := by decide
  rw [htokens] at hwalk horiginal hsuffix
  obtain ⟨u, hu, hwalk⟩ := Pointer.walk_cons hwalk
  obtain ⟨w, hw, -⟩ := Pointer.walk_cons hwalk
  obtain ⟨ms, heq, hfield⟩ := Pointer.step_ok hu (hdigits word hword)
  obtain rfl : document = ms := by simpa using heq
  obtain rfl : .map definitions = u := by simpa [hdefinitions] using hfield
  have hmem : ⟨.text key, w, .text ""⟩ ∈ Components.definitions document := by
    refine List.mem_flatMap.2 ⟨word, hword, ?_⟩
    rw [hdefinitions]
    exact Components.mem_schemaEntries (Pointer.step_map hw)
  have hsome : (Components.definitions document).isEmpty = false :=
    List.isEmpty_eq_false_iff.2 (List.ne_nil_of_mem hmem)
  rw [hsome, Bool.false_and, if_neg Bool.false_ne_true] at hes
  obtain rfl : key = original := by simpa [originalName] using horiginal
  obtain rfl : "" = suffix := by simpa [suffixOf, Value.text] using hsuffix
  rw [hes, hname]
  exact ⟨_, hmem, Components.declaredName_of_text rfl rfl⟩

theorem exists_whole_entry {document : Members}
    (hdocument : ctx.registry.document? info.document = some (.map document))
    (hbare : ∀ components, document.field? "components" ≠ some (.map components))
    (hnone : Components.definitions document = [])
    (hhints : Components.schemaHints.any (Members.has document) = true) (htokens : info.tokens = [])
    (hsame : documentName (Pointer.split ref).1 = documentName (Pointer.split info.document).1) :
    ∃ e ∈ es, e.declaredName = .ok info.name := by
  obtain ⟨-, -, original, suffix, -, -, -, horiginal, hsuffix, hname⟩ := info_reads h
  have hes := Components.entries_ok_of_bare (Context.document_making hdocument) hbare hes
  rw [hnone, List.isEmpty_nil, Bool.true_and, if_pos hhints] at hes
  obtain ⟨name, hdocumentName, rfl⟩ := hes
  rw [htokens] at horiginal hsuffix
  obtain rfl : original = name :=
    Except.ok.inj ((horiginal.symm.trans hsame).trans hdocumentName)
  obtain rfl : "" = suffix := by simpa [suffixOf, Value.text] using hsuffix
  refine ⟨_, List.mem_singleton_self _, ?_⟩
  rw [hname]
  exact Components.declaredName_of_text rfl rfl

/-- A reference that leads to an entry stands for its name. -/
theorem exists_entry (hentry : info.OfEntry ctx ref) :
    ∃ e ∈ es, e.declaredName = .ok info.name := by
  cases hentry with
  | schema key htokens hsuffix => exact exists_schema_entry h hes htokens hsuffix
  | content componentType key located schema htype htokens hlocated hschema =>
    exact exists_content_entry h hes htype htokens hlocated hschema
  | definition document definitions word key hdocument hbare hword hdefinitions htokens =>
    exact exists_definition_entry h hes hdocument hbare hword hdefinitions htokens
  | whole document hdocument hbare hnone hhints htokens hname =>
    exact exists_whole_entry h hes hdocument hbare hnone hhints htokens hname

end
end Reference
end ApiTypes

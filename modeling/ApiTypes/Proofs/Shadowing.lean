import ApiTypes.Proofs.CrossImports
import ApiTypes.Proofs.Naming

/-!
# Names that components have

What is declared below an entry or for an operation is named while only some of the names of
components are avoided.

* `Components.Entry.OfComponents` : the entries of the components of the target, whose names are
  claimed by `Components.names` (`Components.mem_names`);
* `Resolve.MemberSlips`, `Resolve.Slips`, `Operation.Slips` : the ways in which a name is given that
  a component may have;
* `Resolve.slips_of_named`, `Operation.make_slips` : there are no others;
* `Context.Hoists`, `Bundle.Hoisted` : what is declared below an entry or for an operation, alone
  and in a run; `Bundle.kept_name` : what a run keeps of the declarations that have one name;
* `shadowed_names` : all of these together;
* `shadowed_names_lost` : a declaration that gives way to a component.
-/

namespace ApiTypes

/-! ## Entries of components -/

namespace Components

/-- An entry that is a component schema of the target. -/
def Entry.IsSchema (ctx : Context) (e : Entry) : Prop :=
  ∃ schemas, ctx.targetSchemas = .ok (.map schemas) ∧ e ∈ schemaEntries schemas

/-- An entry of the components of the target: a schema, or the JSON schema of a response or a
request body. -/
inductive Entry.OfComponents (ctx : Context) (e : Entry) : Prop
  | schema (h : e.IsSchema ctx)
  | content {document components ms : Members} {componentType : String} {suffix : Value}
      {entries : List Entry} (hdocument : ctx.registry.document ctx.target = .map document)
      (hcomponents : document.field? "components" = some (.map components))
      (htype : componentType ∈ contentTypes) (hsuffix : ctx.suffixFor componentType = .ok suffix)
      (hms : Form.optionalMapping (components.field? componentType) = .ok ms)
      (hentries : contentEntries suffix ms = .ok entries) (he : e ∈ entries)

/-- The names of one type of components are among those of all types. -/
theorem namesOfTypes_ok {ctx : Context} {components : Members} {types names : List String}
    (h : namesOfTypes ctx components types = .ok names) {componentType : String}
    (htype : componentType ∈ types) :
    ∃ suffix keys own, ctx.suffixFor componentType = .ok suffix ∧
      Form.optionalRow (components.field? componentType) = .ok keys ∧
      List.Forall₂ (fun key n => (Entry.mk key .null suffix).declaredName = .ok n) keys own ∧
      own ⊆ names := by
  induction types generalizing names with
  | nil => cases htype
  | cons first rest ih =>
    rw [namesOfTypes] at h
    obtain ⟨suffix, hsuffix, h⟩ := Except.bind_eq_ok.1 h
    obtain ⟨keys, hkeys, h⟩ := Except.bind_eq_ok.1 h
    obtain ⟨own, hown, h⟩ := Except.bind_eq_ok.1 h
    obtain ⟨later, hlater, h⟩ := Except.bind_eq_ok.1 h
    obtain rfl : own ++ later = names := by simpa [pure, Except.pure] using h
    rcases List.mem_cons.1 htype with rfl | htype
    · exact ⟨suffix, keys, own, hsuffix, hkeys, Except.mapM_eq_ok hown,
        List.subset_append_left _ _⟩
    · obtain ⟨suffix', keys', own', hsuffix', hkeys', hown', hsub⟩ := ih hlater htype
      exact ⟨suffix', keys', own', hsuffix', hkeys', hown',
        List.subset_append_of_subset_right _ hsub⟩

/-- The keys of a mapping that may be left out, as a row. -/
theorem optionalRow_of_mapping {v : Option Value} {ms : Members}
    (h : Form.optionalMapping v = .ok ms) :
    Form.optionalRow v = .ok (ms.map fun m => .atom m.1) := by
  have hv : Value.orEmpty v = .map ms := Form.mapping_ok.1 h
  rw [Form.optionalRow, hv, Form.row]

section
variable {ctx : Context} {e : Entry} {n : String}

/-- A schema's key is declared. -/
theorem isDeclared_of_isSchema (h : e.IsSchema ctx) (hname : e.name = .text n) (hne : n ≠ "") :
    ctx.isDeclared n = .ok true := by
  obtain ⟨schemas, hschemas, he⟩ := h
  obtain ⟨m, hm, rfl⟩ := List.mem_map.1 he
  obtain ⟨key, v⟩ := m
  obtain rfl : key = .text n := by simpa [Value.text] using hname
  have hhas : Members.has schemas n = true := by
    unfold Members.has Members.field? Members.get?
    rw [Option.isSome_map, List.find?_isSome]
    exact ⟨_, hm, by simp [Atom.same]⟩
  unfold Context.isDeclared
  rw [if_neg hne, hschemas]
  simp [Form.holds, hhas, bind, Except.bind]

/-- What is made on the way to the names of components. -/
theorem names_ok {claimed : List String} (h : names ctx = .ok claimed) :
    ∃ (document components : Members) (keys : List Value) (schemas others : List String),
      ctx.registry.document ctx.target = .map document ∧
      Form.optionalMapping (document.field? "components") = .ok components ∧
      Form.optionalRow (components.field? "schemas") = .ok keys ∧
      List.Forall₂ (fun key n => Form.pascal key = .ok n) keys schemas ∧
      namesOfTypes ctx components contentTypes = .ok others ∧ claimed = schemas ++ others := by
  unfold names at h
  obtain ⟨document, hdocument, h⟩ := Except.bind_eq_ok.1 h
  obtain ⟨components, hcomponents, h⟩ := Except.bind_eq_ok.1 h
  obtain ⟨keys, hkeys, h⟩ := Except.bind_eq_ok.1 h
  obtain ⟨schemas, hschemas, h⟩ := Except.bind_eq_ok.1 h
  obtain ⟨others, hothers, h⟩ := Except.bind_eq_ok.1 h
  exact ⟨document, components, keys, schemas, others, Form.mapping_ok.1 hdocument, hcomponents,
    hkeys, Except.mapM_eq_ok hschemas, hothers, by simpa [pure, Except.pure] using h.symm⟩

theorem targetSchemas_eq {document components : Members}
    (hdocument : ctx.registry.document ctx.target = .map document)
    (hcomponents : Form.optionalMapping (document.field? "components") = .ok components) :
    ctx.targetSchemas = .ok (Value.orEmpty (components.field? "schemas")) := by
  unfold Context.targetSchemas schemasOf
  rw [hdocument]
  exact Except.bind_eq_ok.2 ⟨_, rfl, Except.bind_eq_ok.2 ⟨_, hcomponents, rfl⟩⟩

/-- What a component entry is declared as is a name that the components claim. -/
theorem mem_names {claimed : List String} (h : names ctx = .ok claimed) (he : e.OfComponents ctx)
    (hn : e.declaredName = .ok n) : n ∈ claimed := by
  obtain ⟨document, components, keys, schemas, others, hdocument, hcomponents, hkeys, hschemas,
    hothers, rfl⟩ := names_ok h
  cases he with
  | schema he =>
    obtain ⟨ms, hms, he⟩ := he
    obtain ⟨m, hm, rfl⟩ := List.mem_map.1 he
    rw [targetSchemas_eq hdocument hcomponents] at hms
    have hrow : keys = ms.map fun m => .atom m.1 := by
      have hok := optionalRow_of_mapping (Form.mapping_ok.2 (Except.ok.inj hms))
      exact Except.ok.inj (hkeys.symm.trans hok)
    obtain ⟨base, hbase, hpascal⟩ := exists_right_of_forall₂ hschemas
      (hrow ▸ List.mem_map.2 ⟨m, hm, rfl⟩)
    have hplain : n = base ++ "" := by
      unfold Entry.declaredName at hn
      rw [hpascal] at hn
      exact (Except.ok.inj hn).symm
    rw [hplain, String.append_empty]
    exact List.mem_append_left _ hbase
  | @content document' components' ms componentType suffix entries hdocument' hcomponents' htype
      hsuffix hms hentries he =>
    obtain rfl : document' = document := Value.map.inj (hdocument'.symm.trans hdocument)
    obtain rfl : components' = components := by
      simpa [hcomponents', Form.optionalMapping, Form.mapping] using hcomponents
    obtain ⟨suffix', keys', own, hsuffix', hkeys', hown, hsub⟩ := namesOfTypes_ok hothers htype
    obtain rfl : suffix = suffix' := Except.ok.inj (hsuffix.symm.trans hsuffix')
    obtain rfl : _ = keys' := Except.ok.inj ((optionalRow_of_mapping hms).symm.trans hkeys')
    obtain ⟨m, hm, s, -, rfl⟩ := (mem_contentEntries hentries).1 he
    obtain ⟨o, ho, hdeclared⟩ := exists_right_of_forall₂ hown (List.mem_map.2 ⟨m, hm, rfl⟩)
    obtain rfl : n = o := Except.ok.inj (hn.symm.trans hdeclared)
    exact List.mem_append_right _ (hsub ho)

/-- In a document with components, all entries are theirs. -/
theorem ofComponents_of_mem {document components : Members} {es : List Entry}
    (hsame : ctx.current = ctx.target) (hdocument : ctx.document = .map document)
    (hcomponents : document.field? "components" = some (.map components))
    (h : entries ctx = .ok es) (he : e ∈ es) : e.OfComponents ctx := by
  obtain ⟨schemas, others, hschemas, hothers, rfl⟩ :=
    entries_ok_of_components hdocument hcomponents h
  have htarget : ctx.registry.document ctx.target = .map document := hsame ▸ hdocument
  rcases List.mem_append.1 he with he | he
  · have hmapping : Form.optionalMapping (document.field? "components") = .ok components := by
      rw [hcomponents, Form.optionalMapping, Value.orEmpty_map, Form.mapping]
    refine .schema ⟨schemas, ?_, he⟩
    rw [targetSchemas_eq htarget hmapping, Form.mapping_ok.1 hschemas]
  · obtain ⟨parts, hparts, rfl⟩ := entriesOfTypes_ok hothers
    obtain ⟨own, hown, he⟩ := List.mem_flatten.1 he
    obtain ⟨componentType, htype, suffix, ms, hsuffix, hms, hentries⟩ :=
      exists_left_of_forall₂ hparts hown
    exact .content htarget hcomponents htype hsuffix hms hentries he

end
end Components

/-! ## Names in schemas -/

namespace Resolve

/-- The ways in which a member gets the name of a component `o`. A name is held against the keys of
component schemas, so the name of a schema with another key, and that of a response or a body, goes
through; what is taken instead of a schema's key is not held against anything, and neither is a name
with a number. -/
inductive MemberSlips (ctx : Context) (parent : String) (key : Value) (o : Components.Entry) :
    String → Prop
  | unlike {word : String} (hword : Form.pascal key = .ok word)
      (hname : o.declaredName = .ok (Name.pascal parent ++ word))
      (hkey : o.IsSchema ctx → o.name ≠ .text (Name.pascal parent ++ word)) :
      MemberSlips ctx parent key o (Name.pascal parent ++ word)
  | instead {word : String} (hword : Form.pascal key = .ok word)
      (htaken : ctx.isDeclared (Name.pascal parent ++ word) = .ok true) :
      MemberSlips ctx parent key o (Name.pascal parent ++ word ++ "Property")
  | again {name : String} {number : Nat} (h : childName ctx parent key = .ok name)
      (hnumber : 2 ≤ number) : MemberSlips ctx parent key o (name ++ toString number)

/-- The ways in which the name of a component `o` is given in a schema: to a member, or without a
look at other names to items, to parts of a composition, and to the values of one. -/
inductive Slips (ctx : Context) (s : Schema) (name : Option String) (o : Components.Entry) :
    String → Prop
  | member {site : Site} {raw : Members} {properties : List (Atom × Schema)} {parent n : String}
      {p : Atom × Schema}
      (hsite : at? ctx s name site = some (.object raw properties, some parent))
      (hp : p ∈ properties) (h : MemberSlips ctx parent (.atom p.1) o n) : Slips ctx s name o n
  | items {site : Site} {raw : Members} {items : Schema} {parent : String}
      (hsite : at? ctx s name site = some (.array raw (some items), some parent)) :
      Slips ctx s name o (parent ++ "Item")
  | part {site : Site} {raw : Members} {keyword : Keyword} {schemas : List Schema}
      {parent n : String} {i : Nat} {t : Schema}
      (hsite : at? ctx s name site = some (.composition raw keyword schemas, some parent))
      (hpart : below? ctx (.composition raw keyword schemas) (some parent) (.part i) =
        some (t, some n)) : Slips ctx s name o n
  | values {site : Site} {raw : Members} {keyword : Keyword} {schemas : List Schema}
      {parent : String}
      (hsite : at? ctx s name site = some (.composition raw keyword schemas, some parent)) :
      Slips ctx s name o (Name.pascal parent)

variable {ctx : Context} {o : Components.Entry} {n : String}

theorem memberSlips_of_childName {parent : String} {key : Value}
    (h : childName ctx parent key = .ok n) (hne : n ≠ "") (hname : o.declaredName = .ok n) :
    MemberSlips ctx parent key o n := by
  unfold childName at h
  obtain ⟨word, hword, h⟩ := Except.bind_eq_ok.1 h
  obtain ⟨taken, htaken, h⟩ := Except.bind_eq_ok.1 h
  obtain rfl : _ = n := Except.ok.inj h
  cases taken with
  | true => exact .instead hword htaken
  | false =>
    refine .unlike hword hname fun ho hkey => ?_
    have hdeclared := Components.isDeclared_of_isSchema ho hkey hne
    rw [htaken] at hdeclared
    cases hdeclared

theorem MemberName.slips {parent : String} {key : Value} (h : MemberName ctx parent key n)
    (hne : n ≠ "") (hname : o.declaredName = .ok n) : MemberSlips ctx parent key o n := by
  cases h with
  | child h => exact memberSlips_of_childName h hne hname
  | again h hnumber => exact .again h hnumber

/-- There are no other ways. -/
theorem slips_of_named {s : Schema} {name : Option String} (h : Named ctx s name n)
    (hname : o.declaredName = .ok n) : Slips ctx s name o n := by
  cases h with
  | values hsite => exact .values hsite
  | @part site step t u m n hsite hstep hbelow =>
    have hpart := hbelow
    unfold below? at hbelow
    split at hbelow
    · obtain ⟨hne, p, hp, parent, rfl, hmember⟩ := memberName_of_below? hpart
      exact .member hsite hp (hmember.slips hne hname)
    · obtain ⟨parent, rfl, rfl⟩ := Option.map_eq_some_iff.1 (Prod.mk.inj (Option.some.inj hbelow)).2
      exact .items hsite
    · exact absurd rfl hstep
    · cases m with
      | none => exact absurd (below?_none hpart) (Option.some_ne_none n)
      | some parent => exact .part hsite hpart
    · cases hbelow

end Resolve

/-! ## Names for operations -/

namespace Operation

/-- What is named for an operation is none of the names of components, or has a second choice. -/
theorem freeName_mem {claimed : List String} {name : String}
    (h : freeName claimed name ∈ claimed) :
    name ∈ claimed ∧ freeName claimed name = name ++ "Property" := by
  unfold freeName at h ⊢
  by_cases hname : claimed.contains name = true
  · rw [if_pos hname]
    exact ⟨List.contains_iff_mem.1 hname, rfl⟩
  · rw [if_neg hname] at h
    exact absurd (List.contains_iff_mem.2 h) hname

/-- A schema for which an operation has a name, with the context in which it is read: that of a
query parameter, of the body or of the response. -/
inductive Slot (ctx : Context) (pathItem operation : Members) (typeName : String)
    (claimed : List String) : Context → Schema → Option String → Prop
  | parameter {params : List Parameter} {names : List (Option String)} {p : Parameter}
      {name : Option String} (hparams : parameters ctx pathItem operation = .ok params)
      (hnames : Resolve.childNames ctx (some (freeName claimed (typeName ++ "Params")))
        ((params.filter (·.isIn "query")).map (·.name)) = .ok names)
      (hp : (p, name) ∈ (params.filter (·.isIn "query")).zip names) :
      Slot ctx pathItem operation typeName claimed p.owner p.schema name
  | body {ms schema : Members} (hbody : operation.field? "requestBody" = some (.map ms))
      (hschema : Components.jsonSchemaOf ms = .ok (some schema)) :
      Slot ctx pathItem operation typeName claimed ctx (.ofValue (.map schema))
        (some (freeName claimed (typeName ++ "Body")))
  | response {responses ms schema : Members}
      (hresponses : Form.optionalMapping (operation.field? "responses") = .ok responses)
      (hresponse : successResponse? responses = some (.map ms))
      (hschema : Components.jsonSchemaOf ms = .ok (some schema)) :
      Slot ctx pathItem operation typeName claimed ctx (.ofValue (.map schema))
        (some (freeName claimed (typeName ++ "Response")))

/-- The ways in which the name of a component `o` is given for an operation: as the second choice
for what is named after the operation, to a query parameter, and below what has a name. -/
inductive Slips (ctx : Context) (pathItem operation : Members) (typeName : String)
    (claimed : List String) (o : Components.Entry) : String → Prop
  | instead {word : String} (hword : word ∈ ["Params", "Body", "Response"])
      (htaken : typeName ++ word ∈ claimed) :
      Slips ctx pathItem operation typeName claimed o (typeName ++ word ++ "Property")
  | parameter {params : List Parameter} {p : Parameter} {n : String}
      (hparams : parameters ctx pathItem operation = .ok params) (hp : p ∈ params)
      (h : Resolve.MemberSlips ctx (freeName claimed (typeName ++ "Params")) p.name o n) :
      Slips ctx pathItem operation typeName claimed o n
  | below {inner : Context} {s : Schema} {name : Option String} {n : String}
      (hslot : Slot ctx pathItem operation typeName claimed inner s name)
      (hsame : inner.targetSchemas = ctx.targetSchemas)
      (h : Resolve.Slips inner s (Resolve.givenName name) o n) :
      Slips ctx pathItem operation typeName claimed o n

section
variable {ctx : Context} {pathItem operation : Members} {typeName : String}
  {claimed : List String} {o : Components.Entry}

/-- A name that is made of the operation's is a component's only if it is the second choice. -/
theorem slips_of_freeName {word : String} (hword : word ∈ ["Params", "Body", "Response"])
    (h : freeName claimed (typeName ++ word) ∈ claimed) :
    Slips ctx pathItem operation typeName claimed o (freeName claimed (typeName ++ word)) := by
  obtain ⟨htaken, hname⟩ := freeName_mem h
  rw [hname]
  exact .instead hword htaken

/-- What is read for a body or a response has the name of its slot, or is named in it. -/
theorem content_slips {word : String} (hword : word ∈ ["Params", "Body", "Response"])
    {schema : Members} {r : Resolved}
    (hslot : Slot ctx pathItem operation typeName claimed ctx (.ofValue (.map schema))
      (some (freeName claimed (typeName ++ word))))
    (h : (Resolve.slot ctx (.ofValue (.map schema)) (some (freeName claimed (typeName ++ word)))
      false).outcome = .ok r)
    {d : Declaration} (hd : d ∈ r.declarations) (hname : o.declaredName = .ok d.name)
    (hclaimed : d.name ∈ claimed) :
    Slips ctx pathItem operation typeName claimed o d.name := by
  rcases Resolve.slot_named h d hd with hown | hnamed
  · have hfree : freeName claimed (typeName ++ word) = d.name :=
      Option.some.inj (Option.filter_eq_some_iff.1 hown).1
    rw [← hfree] at hclaimed ⊢
    exact slips_of_freeName hword hclaimed
  · exact .below hslot rfl (Resolve.slips_of_named hnamed hname)

/-- What is read for the query parameters has the name of the interface of them, or is named in it
or in one of them. -/
theorem paramsInterface_slips {params : List Parameter} {r : Resolved}
    (hparams : parameters ctx pathItem operation = .ok params)
    (h : (paramsInterface ctx (freeName claimed (typeName ++ "Params"))
      (params.filter (·.isIn "query"))).outcome = .ok r)
    {d : Declaration} (hd : d ∈ r.declarations) (hname : o.declaredName = .ok d.name)
    (hclaimed : d.name ∈ claimed) :
    Slips ctx pathItem operation typeName claimed o d.name := by
  obtain ⟨names, types, members, hnames, htypes, -, rfl⟩ := paramsInterface_ok h
  rcases List.mem_append.1 hd with hd | hd
  · obtain ⟨t, ht, hd⟩ := List.mem_flatMap.1 hd
    obtain ⟨⟨p, name⟩, hzip, hslot⟩ := exists_left_of_forall₂ htypes ht
    have hp : p ∈ params := (List.mem_filter.1 (List.of_mem_zip hzip).1).1
    rcases Resolve.slot_named hslot d hd with hown | hnamed
    · obtain ⟨rfl, hne⟩ := Option.filter_eq_some_iff.1 hown
      have hkey : (p.name, some d.name) ∈
          ((params.filter (·.isIn "query")).map (·.name)).zip names := by
        rw [List.zip_map_left]
        exact List.mem_map.2 ⟨_, hzip, rfl⟩
      obtain ⟨parent, hparent, hmember⟩ := Resolve.childNames_named hnames hkey
      obtain rfl := Option.some.inj hparent
      exact .parameter hparams hp (hmember.slips (by simpa using hne) hname)
    · have hsame : p.owner.targetSchemas = ctx.targetSchemas :=
        parameters_keeps (Q := (·.targetSchemas = ctx.targetSchemas)) (fun _ _ _ h => h) rfl
          hparams p hp
      exact .below (.parameter hparams hnames hzip) hsame
        (Resolve.slips_of_named hnamed hname)
  · obtain rfl := List.mem_singleton.1 hd
    exact slips_of_freeName (by simp) hclaimed

end

/-- What is declared for an operation has the name of a component only by one of these ways. -/
theorem make_slips {ctx : Context} {method : String} {path : Atom} {pathItem : Members}
    {operation : Value} {op : Operation}
    (h : (make ctx method path pathItem operation).outcome = .ok op) {d : Declaration}
    (hd : d ∈ op.declarations) {o : Components.Entry} (ho : o.OfComponents ctx)
    (hname : o.declaredName = .ok d.name) :
    ∃ ms claimed, operation = .map ms ∧ Components.names ctx = .ok claimed ∧
      Slips ctx pathItem ms (Name.pascal op.name) claimed o d.name := by
  obtain ⟨ms, rfl, s, -, hdeclarations⟩ := make_ok h
  have hclaimed : d.name ∈ s.claimed := Components.mem_names s.claimed_ok ho hname
  refine ⟨ms, s.claimed, rfl, s.claimed_ok, ?_⟩
  rw [hdeclarations] at hd
  obtain ⟨r, hr, hd⟩ := List.mem_flatMap.1 hd
  simp only [Steps.all, List.mem_append, Option.mem_toList, List.mem_map] at hr
  rcases hr with ((⟨p, hp, rfl⟩ | hr) | hr) | hr
  · -- path parameters are read without names
    obtain ⟨q, -, -, hvalue⟩ := exists_left_of_forall₂ (pathParameters_ok s.pathParams_ok) hp
    exact absurd (Resolve.value_named hvalue d hd) Resolve.not_named
  · have hparams := paramsOf_ok.1 s.params_ok
    split at hparams
    · rw [hparams] at hr
      cases hr
    · obtain ⟨q, hq, hsome⟩ := hparams
      rw [hsome] at hr
      cases hr
      exact paramsInterface_slips s.parameters_ok hq hd hname hclaimed
  · have hbody := s.body_ok
    rw [Option.mem_def.1 hr] at hbody
    obtain ⟨body, hmap, ⟨_, _, -, -, rfl⟩ | ⟨schema, -, hschema, hslot⟩⟩ := contentOf_ok hbody
    · cases hd
    · exact content_slips (by simp) (.body hmap hschema) hslot hd hname hclaimed
  · have hresponse := s.response_ok
    rw [Option.mem_def.1 hr] at hresponse
    obtain ⟨response, hmap, ⟨_, _, -, -, rfl⟩ | ⟨schema, -, hschema, hslot⟩⟩ :=
      contentOf_ok hresponse
    · cases hd
    · exact content_slips (by simp) (.response s.responses_ok hmap hschema) hslot hd hname hclaimed

end Operation

/-! ## Names in a document -/

/-- What is declared for an entry has its own name, or one that is given in its schema. -/
theorem Definition.ofEntry_slips {ctx : Context} {e o : Components.Entry} {ds : List Declaration}
    (h : (ofEntry ctx e).outcome = .ok ds) {d : Declaration} (hd : d ∈ ds)
    (hname : o.declaredName = .ok d.name) :
    e.declaredName = .ok d.name ∨ ∃ name, e.declaredName = .ok name ∧
      Resolve.Slips ctx (.ofValue e.schema) (Resolve.givenName (some name)) o d.name := by
  have hnames := (ofEntry_names h d.name).1 ⟨d, hd, rfl⟩
  generalize d.name = n at hname hnames
  cases hnames with
  | own hown => exact .inl hown
  | @below name r d' hown hvalue hd' =>
    have hnamed := Resolve.value_named hvalue d' hd'
    exact .inr ⟨name, hown, Resolve.slips_of_named hnamed hname⟩

/-- A declaration that is made below an entry or for an operation, with the ways in which the name
of a component can slip into it. An entry's own name is set aside. -/
inductive Context.Hoists (ctx : Context) (d : Declaration) : (Components.Entry → Prop) → Prop
  | entry {e : Components.Entry} {ds : List Declaration} {name : String}
      (hds : (Definition.ofEntry ctx e).outcome = .ok ds) (hd : d ∈ ds)
      (hname : e.declaredName = .ok name) (hown : d.name ≠ name) :
      Hoists ctx d fun o =>
        Resolve.Slips ctx (.ofValue e.schema) (Resolve.givenName (some name)) o d.name
  | operation {method : String} {path : Atom} {pathItem ms : Members} {op : Operation}
      {claimed : List String}
      (hop : (Operation.make ctx method path pathItem (.map ms)).outcome = .ok op)
      (hd : d ∈ op.declarations) (hclaimed : Components.names ctx = .ok claimed) :
      Hoists ctx d fun o =>
        Operation.Slips ctx pathItem ms (Name.pascal op.name) claimed o d.name

/-- The name of a component comes to a declaration only by these ways. -/
theorem Context.Hoists.slips {ctx : Context} {d : Declaration} {slips : Components.Entry → Prop}
    (h : ctx.Hoists d slips) {o : Components.Entry} (ho : o.OfComponents ctx)
    (hname : o.declaredName = .ok d.name) : slips o := by
  cases h with
  | entry hds hd hdeclared hown =>
    rcases Definition.ofEntry_slips hds hd hname with hsame | ⟨name, hfound, hslips⟩
    · exact absurd (Except.ok.inj (hsame.symm.trans hdeclared)) hown
    · obtain rfl := Except.ok.inj (hfound.symm.trans hdeclared)
      exact hslips
  | operation hop hd hclaimed =>
    obtain ⟨ms, claimed, heq, hfound, hslips⟩ := Operation.make_slips hop hd ho hname
    obtain rfl := Value.map.inj heq
    obtain rfl := Except.ok.inj (hfound.symm.trans hclaimed)
    exact hslips

namespace Bundle

/-- A declaration that is made for a document and is no entry's own: below an entry, or, in the
target, for an operation. -/
inductive Hoisted (config : Config) (documents : Registry) (b : Bundle) (key : String)
    (d : Declaration) : Prop
  | entry {es : List Components.Entry} {e : Components.Entry} {ds : List Declaration}
      (hes : Components.entries (contextOf config documents key) = .ok es) (he : e ∈ es)
      (hds : (Definition.ofEntry (contextOf config documents key) e).outcome = .ok ds)
      (hd : d ∈ ds) (hown : e.declaredName ≠ .ok d.name)
  | operation {op : Operation} (htarget : key = b.target) (hop : op ∈ b.operations)
      (hd : d ∈ op.declarations)

variable {config : Config} {target : String} {documents : Registry} {b : Bundle}

/-- What a run keeps under the name of such a declaration is another one, unless an entry has that
name. -/
theorem kept_name (h : make config target documents = .ok b) {v : Volume} (hv : v ∈ b.volumes)
    {d : Declaration} (hd : Hoisted config documents b v.document d) :
    ∃ k ∈ v.declarations, k.name = d.name ∧ (Hoisted config documents b v.document k ∨
      ∃ es, Components.entries (contextOf config documents v.document) = .ok es ∧
        ∃ o ∈ es, o.declaredName = .ok d.name) := by
  have hmade : Names config documents b v.document d.name := by
    cases hd with
    | @entry es e ds hes he hds hd hown =>
      exact .inl ⟨es, hes, e, he, (Definition.ofEntry_names hds d.name).1 ⟨d, hd, rfl⟩⟩
    | operation htarget hop hd => exact .inr ⟨htarget, _, hop, d, hd, rfl⟩
  obtain ⟨k, hk, hname⟩ := (volume_names h hv d.name).2 hmade
  refine ⟨k, hk, hname, ?_⟩
  obtain ⟨ds, hds, hfirst⟩ := volume_ok h hv
  rw [hfirst] at hk
  rcases List.mem_append.1 (firstOfName_subset _ _ hk) with hk | hk
  · obtain ⟨es, results, hes, hresults, rfl⟩ := Definition.ofDocument_ok.1 hds
    obtain ⟨own, hown, hk⟩ := List.mem_flatten.1 hk
    obtain ⟨e, he, hentry⟩ := exists_left_of_forall₂ hresults hown
    by_cases hdeclared : e.declaredName = .ok k.name
    · exact .inr ⟨es, hes, e, he, hname ▸ hdeclared⟩
    · exact .inl (.entry hes he hentry hk hdeclared)
  · split at hk
    · rename_i htarget
      obtain ⟨op, hop, hk⟩ := List.mem_flatMap.1 hk
      exact .inl (.operation htarget hop hk)
    · cases hk

end Bundle

/-- What is declared below an entry or for an operation has the name of no component, unless that
slips into it by one of the ways listed. So under its name a run keeps a declaration of this kind,
unless such a component takes its place. -/
theorem shadowed_names {ctx : Context} {d : Declaration} {slips : Components.Entry → Prop}
    (hd : ctx.Hoists d slips) :
    (∀ o : Components.Entry, o.OfComponents ctx → ¬ slips o → o.declaredName ≠ .ok d.name) ∧
    ∀ (config : Config) (target : String) (documents : Registry) (b : Bundle) (v : Volume)
      (document components : Members),
      Bundle.make config target documents = .ok b → v ∈ b.volumes →
      Bundle.contextOf config documents v.document = ctx → ctx.document = .map document →
      document.field? "components" = some (.map components) →
      b.Hoisted config documents v.document d →
      ∃ k ∈ v.declarations, k.name = d.name ∧ (b.Hoisted config documents v.document k ∨
        ∃ o : Components.Entry, o.OfComponents ctx ∧ o.declaredName = .ok d.name ∧ slips o) := by
  refine ⟨fun o ho hnone hname => hnone (hd.slips ho hname), ?_⟩
  rintro config target documents b v document components h hv rfl hdocument hcomponents hmade
  obtain ⟨k, hk, hname, hkept⟩ := Bundle.kept_name h hv hmade
  refine ⟨k, hk, hname, hkept.imp_right ?_⟩
  rintro ⟨es, hes, o, ho, hdeclared⟩
  have hcomponent := Components.ofComponents_of_mem rfl hdocument hcomponents hes ho
  exact ⟨o, hcomponent, hdeclared, hd.slips hcomponent hdeclared⟩

/-- A component schema whose key is not the name that it is declared under. -/
def ownerEntry : Components.Entry :=
  ⟨.text "pet_owner", .map [(.text "type", .text "string")], .text ""⟩

/-- A component schema with a member that gets a declaration of its own. -/
def petEntry : Components.Entry :=
  let owner : Value := .map [(.text "properties", .map [
    (.text "name", .map [(.text "type", .text "string")])])]
  ⟨.text "Pet", .map [(.text "properties", .map [(.text "owner", owner)])], .text ""⟩

def ownerDocument : Value :=
  .map [(.text "components", .map [(.text "schemas", .map [
    (.text "pet_owner", ownerEntry.schema), (.text "Pet", petEntry.schema)])])]

def ownerContext : Context := Bundle.contextOf apiConfig [("/api.json", ownerDocument)] "/api.json"

theorem ownerEntry_ofComponents : ownerEntry.OfComponents ownerContext :=
  .schema ⟨[(.text "pet_owner", ownerEntry.schema), (.text "Pet", petEntry.schema)], rfl,
    List.mem_cons_self ..⟩

theorem ownerEntry_declaredName : ownerEntry.declaredName = .ok "PetOwner" := by
  have hcased : Name.pascal "pet_owner" ++ "" = "PetOwner" := by decide +kernel
  exact hcased ▸ Components.declaredName_of_text rfl rfl

theorem petEntry_declaredName : petEntry.declaredName = .ok "Pet" := by
  have hcased : Name.pascal "Pet" ++ "" = "Pet" := by decide +kernel
  exact hcased ▸ Components.declaredName_of_text rfl rfl

/-- The run over them declares the owner in `Pet` as an interface, and keeps the schema. -/
theorem ownerDocument_run :
    ∃ b ds, Bundle.make apiConfig "/api.json" [("/api.json", ownerDocument)] = .ok b ∧
      (Definition.ofEntry ownerContext petEntry).outcome = .ok ds ∧
      (∃ d ∈ ds, d.name = "PetOwner" ∧ (d.model matches .interface ..) = true) ∧
      ∃ v ∈ b.volumes, v.document = "/api.json" ∧
        v.declarations.map (·.name) = ["PetOwner", "Pet"] ∧
        ∀ k ∈ v.declarations, k.name = "PetOwner" → (k.model matches .synonym ..) = true := by
  obtain ⟨b, hb, hkept⟩ := Except.exists_of_any
    (x := Bundle.make apiConfig "/api.json" [("/api.json", ownerDocument)])
    (p := fun b => decide (∃ v ∈ b.volumes, v.document = "/api.json" ∧
      v.declarations.map (·.name) = ["PetOwner", "Pet"] ∧
      ∀ k ∈ v.declarations, k.name = "PetOwner" → (k.model matches .synonym ..) = true))
    (by decide +kernel)
  obtain ⟨ds, hds, hmade⟩ := Except.exists_of_any
    (x := (Definition.ofEntry ownerContext petEntry).outcome)
    (p := fun ds => decide (∃ d ∈ ds, d.name = "PetOwner" ∧
      (d.model matches .interface ..) = true)) (by decide +kernel)
  exact ⟨b, ds, hb, hds, of_decide_eq_true hmade, of_decide_eq_true hkept⟩

theorem ownerDocument_hoisted (b : Bundle) {ds : List Declaration} {d : Declaration}
    (hds : (Definition.ofEntry ownerContext petEntry).outcome = .ok ds) (hd : d ∈ ds)
    (hname : d.name = "PetOwner") :
    b.Hoisted apiConfig [("/api.json", ownerDocument)] "/api.json" d := by
  have hes : Components.entries ownerContext = .ok [ownerEntry, petEntry] := rfl
  refine .entry hes (by simp) hds hd ?_
  rw [petEntry_declaredName, hname]
  simp

/-- A component schema that is declared under the second choice of the name of query parameters. -/
def takenEntry : Components.Entry :=
  ⟨.text "ListPetsParamsProperty", .map [(.text "type", .text "string")], .text ""⟩

/-- A document with that schema, and with one that has the first choice. -/
def takenContext : Context :=
  Bundle.contextOf apiConfig [("/api.json", .map [(.text "components", .map [
    (.text "schemas", .map [(.text "ListPetsParams", takenEntry.schema),
      (.text "ListPetsParamsProperty", takenEntry.schema)])])])] "/api.json"

/-- An operation with a query parameter. -/
def listPets : Members :=
  [(.text "operationId", .text "listPets"),
    (.text "parameters", .list [.map [(.text "name", .text "limit")]])]

theorem takenEntry_ofComponents : takenEntry.OfComponents takenContext :=
  .schema ⟨[(.text "ListPetsParams", takenEntry.schema),
    (.text "ListPetsParamsProperty", takenEntry.schema)], rfl,
    List.mem_cons_of_mem _ (List.mem_cons_self ..)⟩

theorem takenEntry_declaredName : takenEntry.declaredName = .ok "ListPetsParamsProperty" := by
  have hcased : Name.pascal "ListPetsParamsProperty" ++ "" = "ListPetsParamsProperty" := by
    decide +kernel
  exact hcased ▸ Components.declaredName_of_text rfl rfl

theorem shadowed_names_owner :
    (∃ ds, (Definition.ofEntry ownerContext petEntry).outcome = .ok ds ∧
      ∃ d ∈ ds, d.name = "PetOwner" ∧ Resolve.Slips ownerContext (.ofValue petEntry.schema)
        (Resolve.givenName (some "Pet")) ownerEntry d.name) ∧
    (∃ op, (Operation.make takenContext "get" (.text "/pets") [] (.map listPets)).outcome = .ok op ∧
      ∃ d ∈ op.declarations, d.name = "ListPetsParamsProperty" ∧ ∃ claimed,
        Components.names takenContext = .ok claimed ∧
        Operation.Slips takenContext [] listPets (Name.pascal op.name) claimed takenEntry d.name) ∧
    ∃ b, Bundle.make apiConfig "/api.json" [("/api.json", ownerDocument)] = .ok b ∧
      ∃ v ∈ b.volumes, ∃ d, b.Hoisted apiConfig [("/api.json", ownerDocument)] v.document d ∧
        d.name = "PetOwner" ∧ ∃ k ∈ v.declarations, k.name = d.name := by
  obtain ⟨b, ds, hb, hds, ⟨d, hd, hname, -⟩, v, hv, hkey, -, -⟩ := ownerDocument_run
  have hhoists := Context.Hoists.entry hds hd petEntry_declaredName (by simp [hname])
  have hhoisted := ownerDocument_hoisted b hds hd hname
  refine ⟨⟨ds, hds, d, hd, hname, ?_⟩, ?_, b, hb, v, hv, d, hkey ▸ hhoisted, hname, ?_⟩
  · by_contra hnone
    exact (shadowed_names hhoists).1 ownerEntry ownerEntry_ofComponents hnone
      (hname ▸ ownerEntry_declaredName)
  · obtain ⟨op, hop, hmade⟩ := Except.exists_of_any
      (x := (Operation.make takenContext "get" (.text "/pets") [] (.map listPets)).outcome)
      (p := fun op => decide (∃ d ∈ op.declarations, d.name = "ListPetsParamsProperty"))
      (by decide +kernel)
    obtain ⟨e, he, hsecond⟩ := of_decide_eq_true hmade
    obtain ⟨claimed, hclaimed, -⟩ := Except.exists_of_any (x := Components.names takenContext)
      (p := fun _ => true) (by decide +kernel)
    refine ⟨op, hop, e, he, hsecond, claimed, hclaimed, ?_⟩
    by_contra hnone
    exact (shadowed_names (.operation hop he hclaimed)).1 takenEntry takenEntry_ofComponents hnone
      (hsecond ▸ takenEntry_declaredName)
  · have hcontext : Bundle.contextOf apiConfig [("/api.json", ownerDocument)] v.document =
        ownerContext := by
      rw [hkey]
      rfl
    obtain ⟨k, hk, hsame, -⟩ := (shadowed_names hhoists).2 apiConfig "/api.json" _ b v _ _ hb hv
      hcontext rfl rfl (hkey ▸ hhoisted)
    exact ⟨k, hk, hsame⟩

/-- The interface of the owner in `Pet` gets the name that the other schema is declared under, and
gives way to it. -/
theorem shadowed_names_lost :
    ∃ b, Bundle.make apiConfig "/api.json" [("/api.json", ownerDocument)] = .ok b ∧
      ∃ v ∈ b.volumes, ∃ d, b.Hoisted apiConfig [("/api.json", ownerDocument)] v.document d ∧
        ownerEntry.OfComponents ownerContext ∧ ownerEntry.declaredName = .ok d.name ∧
        petEntry.declaredName ≠ .ok d.name ∧ d ∉ v.declarations := by
  obtain ⟨b, ds, hb, hds, ⟨d, hd, hname, hmodel⟩, v, hv, hkey, -, hkept⟩ := ownerDocument_run
  refine ⟨b, hb, v, hv, d, hkey ▸ ownerDocument_hoisted b hds hd hname, ownerEntry_ofComponents,
    hname ▸ ownerEntry_declaredName, ?_, fun hmem => ?_⟩
  · rw [petEntry_declaredName, hname]
    simp
  · have hsynonym := hkept d hmem hname
    cases hd : d.model with
    | interface comment name type => simp [hd] at hsynonym
    | _ => simp [hd] at hmodel

end ApiTypes

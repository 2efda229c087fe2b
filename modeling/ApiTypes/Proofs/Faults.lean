import ApiTypes.Proofs.Loading
import ApiTypes.Proofs.Parts

/-!
# What types and operations fail on

* `Reference.Laws P Q` : where `Q` holds of the references that are read, finding what they lead to
  fails only on what `P` holds of, and `Q` holds of the references found there in turn. `P` holds of
  all defects;
* `Reference.Laws.failsOnly_followFor`, `Reference.Laws.followFor` : so chains fail only on such,
  and `Q` is carried to their ends;
* `Components.refs_of_entries`, `Operation.refs_of_written` and the like : what is read of a document
  refers to what the document refers to;
* `Reference.Laws.failsOnly_value`, `Reference.Laws.failsOnly_make` : the type of a schema and the
  types of an operation fail only on what `P` holds of.
-/

namespace ApiTypes

/-! ## References -/

namespace Reference

section
variable {P : Fault → Prop} (hdefect : ∀ d, P (.defect d)) {ctx : Context}
include hdefect

theorem failsOnly_documentKey (part : String) : FailsOnly P (documentKey ctx part) := by
  unfold documentKey
  split_ifs
  · exact failsOnly_ok _
  · exact failsOnly_ok _
  · split
    · exact failsOnly_ok _
    · exact Form.failsOnly_fail hdefect _
  · exact failsOnly_ok _

theorem failsOnly_documentName (part : String) : FailsOnly P (documentName part) := by
  unfold documentName
  dsimp only
  split_ifs
  · split
    · exact (failsOnly_ok _).bind fun _ _ => failsOnly_ok _
    · exact (Form.failsOnly_fail hdefect _).bind fun _ _ => failsOnly_ok _
  · exact (failsOnly_ok _).bind fun _ _ => failsOnly_ok _

end

theorem refs_mappingOf (ref : String) : (Value.map (mappingOf ref)).refs = [ref] := rfl

/-- Where `Q` holds of the references that are read, `P` holds of the failures to find what they
lead to, and `Q` of the references that are found there. -/
structure Laws (P : Fault → Prop) (Q : Context → List String → Prop) : Prop where
  defect : ∀ d, P (.defect d)
  mono : ∀ ctx refs more, Q ctx more → refs ⊆ more → Q ctx refs
  fails : ∀ ctx ref, Q ctx [ref] → FailsOnly P (locate ctx ref)
  found : ∀ ctx ref located, Q ctx [ref] → locate ctx ref = .ok located →
    Q ((ctx.reading located.document).entering located.document located.pointer) located.node.refs

namespace Laws

variable {P : Fault → Prop} {Q : Context → List String → Prop} (laws : Laws P Q) {ctx : Context}
  {ref : String}
include laws

theorem of_mem {refs : List String} (h : Q ctx refs) (href : ref ∈ refs) : Q ctx [ref] :=
  laws.mono ctx _ _ h (List.cons_subset.2 ⟨href, List.nil_subset _⟩)

theorem of_ref {ms : Members} (h : Q ctx (Value.map ms).refs) (href : Schema.refOf? ms = some ref) :
    Q ctx [ref] :=
  laws.of_mem h (Value.ref_mem href)

theorem failsOnly_info (href : Q ctx [ref]) : FailsOnly P (info ctx ref) := by
  refine (laws.fails ctx ref href).bind fun located _ => ?_
  refine FailsOnly.bind ?_ fun original _ => ?_
  · unfold originalName
    split
    · exact failsOnly_documentName laws.defect _
    · exact failsOnly_ok _
  refine FailsOnly.bind ?_ fun suffix _ => ?_
  · unfold suffixOf
    split
    · exact ctx.failsOnly_suffixFor laws.defect _
    · exact failsOnly_ok _
  exact (Form.failsOnly_suffixed laws.defect _ _).bind fun name _ => failsOnly_ok _

/-- A step of a chain: the reference at its end is found where the chain has come to. -/
theorem next {located : Located} {ms : Members} {later : String} (href : Q ctx [ref])
    (hlocated : locate ctx ref = .ok located) (hnode : located.node = .map ms)
    (hnext : Schema.refOf? ms = some later) :
    Q ((ctx.reading located.document).entering located.document located.pointer) [later] := by
  have hfound := laws.found ctx ref located href hlocated
  rw [hnode] at hfound
  exact laws.of_ref hfound hnext

theorem failsOnly_followFor {steps : Nat} (href : Q ctx [ref]) :
    FailsOnly P (Reference.followFor steps ctx ref) := by
  induction steps generalizing ctx ref with
  | zero => exact failsOnly_ok _
  | succ steps ih =>
    rw [Reference.followFor]
    refine (laws.fails ctx ref href).bind fun located hlocated => ?_
    split_ifs
    · exact failsOnly_ok _
    · dsimp only
      split
      · rename_i ms hnode
        split
        · rename_i later hnext
          exact ih (laws.next href hlocated hnode hnext)
        · exact failsOnly_ok _
      · exact failsOnly_ok _

/-- `Q` holds of the mapping at the end of a chain, where it is read. -/
theorem followFor {steps : Nat} {ms : Members} {owner : Context} (href : Q ctx [ref])
    (h : Reference.followFor steps ctx ref = .ok (ms, owner)) : Q owner (Value.map ms).refs := by
  induction steps generalizing ctx ref with
  | zero =>
    obtain ⟨rfl, rfl⟩ : mappingOf ref = ms ∧ ctx = owner := by simpa [Reference.followFor] using h
    rwa [refs_mappingOf]
  | succ steps ih =>
    rw [Reference.followFor] at h
    obtain ⟨located, hlocated, h⟩ := Except.bind_eq_ok.1 h
    have hnode := laws.found ctx ref located href hlocated
    split_ifs at h
    · obtain ⟨rfl, rfl⟩ : mappingOf ref = ms ∧ ctx = owner := by
        simpa [pure, Except.pure] using h
      rwa [refs_mappingOf]
    · dsimp only at h
      split at h
      · rename_i members hmap
        split at h
        · rename_i later hnext
          exact ih (laws.next href hlocated hmap hnext) h
        · obtain ⟨rfl, rfl⟩ : members = ms ∧ _ = owner := by simpa [pure, Except.pure] using h
          rwa [hmap] at hnode
      · obtain ⟨rfl, rfl⟩ : [] = ms ∧ _ = owner := by simpa [pure, Except.pure] using h
        exact laws.mono _ _ _ hnode (List.nil_subset _)

/-! ## Schemas -/

theorem failsOnly_reference (href : Q ctx [ref]) : FailsOnly P (Resolve.reference ctx ref) := by
  refine (laws.failsOnly_info href).bind fun info _ => ?_
  refine (laws.failsOnly_followFor href).bind fun target _ => ?_
  obtain ⟨raw, deeper⟩ := target
  dsimp only
  split
  · exact Form.failsOnly_fail laws.defect _
  · exact failsOnly_ok _

theorem failsAlone {v : Value} (h : Q ctx v.refs) :
    ∀ t ∈ (Schema.ofValue v).inside, Resolve.FailsAlone ctx P t :=
  Resolve.failsAlone_of_refs laws.defect fun _ href =>
    laws.failsOnly_reference (laws.of_mem h (Schema.refs_ofValue v href))

/-- The type of the schema that a value is read as. -/
theorem failsOnly_value {v : Value} (h : Q ctx v.refs) (name : Option String) :
    FailsOnly P (Resolve.value ctx (Schema.ofValue v) name).outcome :=
  Resolve.failsOnly_value (laws.failsAlone h) name

theorem failsOnly_slot {v : Value} (h : Q ctx v.refs) (name : Option String) (combined : Bool) :
    FailsOnly P (Resolve.slot ctx (Schema.ofValue v) name combined).outcome :=
  Resolve.failsOnly_slot (laws.failsAlone h) name combined

end Laws
end Reference

/-! ## Components -/

namespace Components

variable {ctx : Context}

theorem refs_of_entrySchema? {entry : Option Value} {schema : Members}
    (h : entrySchema? entry = some schema) :
    ∃ v, entry = some v ∧ (Value.map schema).refs ⊆ v.refs := by
  obtain ⟨w, hw, hmembers⟩ := Option.bind_eq_some_iff.1 h
  obtain ⟨v, rfl, hfield⟩ := Option.bind_eq_some_iff.1 hw
  obtain ⟨ms, hms, hw⟩ := Option.bind_eq_some_iff.1 hfield
  cases v with
  | map members =>
    obtain rfl : members = ms := Option.some.inj hms
    cases w with
    | map found =>
      obtain rfl : found = schema := Option.some.inj hmembers
      exact ⟨_, rfl, Value.refs_field? hw⟩
    | list items => cases hmembers
    | atom a => cases hmembers
  | list items => cases hms
  | atom a => cases hms

theorem refs_of_firstSchema {content schema : Members} {types : List Atom}
    (h : firstSchema content types = .ok (some schema)) :
    (Value.map schema).refs ⊆ (Value.map content).refs := by
  induction types with
  | nil => cases h
  | cons mediaType rest ih =>
    cases mediaType with
    | text mediaType =>
      rw [firstSchema] at h
      split at h
      · rename_i found hfound
        obtain rfl := Option.some.inj (Except.ok.inj h)
        split_ifs at hfound
        obtain ⟨v, hv, hrefs⟩ := refs_of_entrySchema? hfound
        exact List.Subset.trans hrefs (Value.refs_field? hv)
      · exact ih h
    | _ => cases h

/-- The schema of a response or a body is held by it. -/
theorem refs_of_jsonSchemaOf {component schema : Members}
    (h : jsonSchemaOf component = .ok (some schema)) :
    (Value.map schema).refs ⊆ (Value.map component).refs := by
  unfold jsonSchemaOf at h
  split_ifs at h
  · obtain rfl := Option.some.inj (Except.ok.inj h)
    exact List.Subset.refl _
  · obtain ⟨mediaTypes, -, h⟩ := Except.bind_eq_ok.1 h
    obtain ⟨content, hcontent, h⟩ := Except.bind_eq_ok.1 h
    rw [Form.mapping_ok] at hcontent
    refine List.Subset.trans (refs_of_firstSchema h) ?_
    rw [← hcontent]
    exact Value.refs_orEmpty_field? component "content"

theorem refs_of_jsonSchema? {component schema : Value}
    (h : jsonSchema? component = .ok (some schema)) : schema.refs ⊆ component.refs := by
  unfold jsonSchema? at h
  obtain ⟨isRef, -, h⟩ := Except.bind_eq_ok.1 h
  split_ifs at h
  · obtain rfl := Option.some.inj (Except.ok.inj h)
    exact List.Subset.refl _
  · obtain ⟨ms, hms, h⟩ := Except.bind_eq_ok.1 h
    obtain ⟨found, hfound, h⟩ := Except.bind_eq_ok.1 h
    rw [Form.mapping_ok] at hms
    cases found with
    | none => simp [pure, Except.pure] at h
    | some found =>
      obtain rfl : Value.map found = schema := by simpa [pure, Except.pure] using h
      rw [hms]
      exact refs_of_jsonSchemaOf hfound

theorem refs_of_contentEntries {suffix : Value} {ms : Members} {es : List Entry}
    (h : contentEntries suffix ms = .ok es) :
    ∀ e ∈ es, e.schema.refs ⊆ (Value.map ms).refs := by
  intro e he
  obtain ⟨m, hm, s, hs, rfl⟩ := (mem_contentEntries h).1 he
  have hmember := List.Subset.trans (Value.refs_of_member hm) (Value.refsOfMembers_subset ms)
  exact List.Subset.trans (refs_of_jsonSchema? hs) hmember

theorem refs_of_schemaEntries {ms : Members} : ∀ e ∈ schemaEntries ms,
    e.schema.refs ⊆ (Value.map ms).refs := by
  intro e he
  obtain ⟨m, hm, rfl⟩ := List.mem_map.1 he
  exact List.Subset.trans (Value.refs_of_member hm) (Value.refsOfMembers_subset ms)

theorem refs_of_entriesOfTypes {components : Members} {types : List String} {es : List Entry}
    (h : entriesOfTypes ctx components types = .ok es) :
    ∀ e ∈ es, e.schema.refs ⊆ (Value.map components).refs := by
  obtain ⟨parts, hparts, rfl⟩ := entriesOfTypes_ok h
  intro e he
  obtain ⟨own, hown, he⟩ := List.mem_flatten.1 he
  obtain ⟨_, -, _, ms, -, hms, hentries⟩ := exists_left_of_forall₂ hparts hown
  exact List.Subset.trans (refs_of_contentEntries hentries e he) (Form.refs_of_optionalMapping hms)

/-- The entries of a document are held by it. -/
theorem refs_of_entries {es : List Entry} (h : entries ctx = .ok es) :
    ∀ e ∈ es, e.schema.refs ⊆ ctx.document.refs := by
  unfold entries at h
  obtain ⟨document, hdocument, h⟩ := Except.bind_eq_ok.1 h
  rw [Form.mapping_ok] at hdocument
  rw [hdocument]
  split at h
  · rename_i components hcomponents
    obtain ⟨schemas, hschemas, h⟩ := Except.bind_eq_ok.1 h
    obtain ⟨others, hothers, h⟩ := Except.bind_eq_ok.1 h
    obtain rfl : _ = es := by simpa [pure, Except.pure] using h
    intro e he
    refine List.Subset.trans ?_ (Value.refs_field? hcomponents)
    rcases List.mem_append.1 he with he | he
    · exact List.Subset.trans (refs_of_schemaEntries e he)
        (Form.refs_of_optionalMapping hschemas)
    · exact refs_of_entriesOfTypes hothers e he
  · dsimp only at h
    split_ifs at h
    · obtain ⟨name, -, h⟩ := Except.bind_eq_ok.1 h
      obtain rfl := by simpa [pure, Except.pure] using h
      intro e he
      obtain rfl := List.mem_singleton.1 he
      exact List.Subset.refl _
    · obtain rfl := Except.ok.inj h
      intro e he
      obtain ⟨key, -, he⟩ := List.mem_flatMap.1 he
      refine List.Subset.trans (refs_of_schemaEntries e he) ?_
      cases hfield : document.field? key with
      | none => exact List.nil_subset _
      | some v =>
        cases v with
        | map ms => exact Value.refs_field? hfield
        | list items => exact List.nil_subset _
        | atom a => exact List.nil_subset _

section
variable {P : Fault → Prop} (hdefect : ∀ d, P (.defect d))
include hdefect

theorem failsOnly_firstSchema (content : Members) (types : List Atom) :
    FailsOnly P (firstSchema content types) := by
  induction types with
  | nil => exact failsOnly_ok _
  | cons mediaType rest ih =>
    cases mediaType with
    | text mediaType =>
      rw [firstSchema]
      split
      · exact failsOnly_ok _
      · exact ih
    | _ => exact Form.failsOnly_fail hdefect _

theorem failsOnly_jsonSchemaOf (component : Members) : FailsOnly P (jsonSchemaOf component) := by
  unfold jsonSchemaOf
  split_ifs
  · exact failsOnly_ok _
  · refine (Form.failsOnly_sortedRow hdefect _).bind fun mediaTypes _ => ?_
    exact (Form.failsOnly_mapping hdefect _).bind fun content _ =>
      failsOnly_firstSchema hdefect content _

theorem failsOnly_jsonSchema? (component : Value) : FailsOnly P (jsonSchema? component) := by
  refine (Form.failsOnly_holds hdefect _ _).bind fun isRef _ => ?_
  split_ifs
  · exact failsOnly_ok _
  · refine (Form.failsOnly_mapping hdefect _).bind fun ms _ => ?_
    exact (failsOnly_jsonSchemaOf hdefect ms).bind fun schema _ => failsOnly_ok _

theorem failsOnly_contentEntries (suffix : Value) (ms : Members) :
    FailsOnly P (contentEntries suffix ms) := by
  induction ms with
  | nil => exact failsOnly_ok _
  | cons m rest ih =>
    rw [contentEntries]
    refine (failsOnly_jsonSchema? hdefect m.2).bind fun schema _ => ?_
    exact ih.bind fun entries _ => failsOnly_ok _

theorem failsOnly_entriesOfTypes (components : Members) (types : List String) :
    FailsOnly P (entriesOfTypes ctx components types) := by
  induction types with
  | nil => exact failsOnly_ok _
  | cons componentType rest ih =>
    rw [entriesOfTypes]
    refine (ctx.failsOnly_suffixFor hdefect _).bind fun suffix _ => ?_
    refine (Form.failsOnly_optionalMapping hdefect _).bind fun ms _ => ?_
    refine (failsOnly_contentEntries hdefect suffix ms).bind fun entries _ => ?_
    exact ih.bind fun later _ => failsOnly_ok _

theorem failsOnly_entries : FailsOnly P (entries ctx) := by
  refine (Form.failsOnly_mapping hdefect _).bind fun document _ => ?_
  split
  · refine (Form.failsOnly_optionalMapping hdefect _).bind fun schemas _ => ?_
    exact (failsOnly_entriesOfTypes hdefect _ _).bind fun others _ => failsOnly_ok _
  · dsimp only
    split_ifs
    · exact (Reference.failsOnly_documentName hdefect _).bind fun name _ => failsOnly_ok _
    · exact failsOnly_ok _

theorem failsOnly_namesOfTypes (components : Members) (types : List String) :
    FailsOnly P (namesOfTypes ctx components types) := by
  induction types with
  | nil => exact failsOnly_ok _
  | cons componentType rest ih =>
    rw [namesOfTypes]
    refine (ctx.failsOnly_suffixFor hdefect _).bind fun suffix _ => ?_
    refine (Form.failsOnly_optionalRow hdefect _).bind fun keys _ => ?_
    refine FailsOnly.bind (.mapM fun key _ => ?_) fun names _ => ?_
    · exact (Form.failsOnly_pascal hdefect key).bind fun name _ =>
        Form.failsOnly_suffixed hdefect name suffix
    · exact ih.bind fun later _ => failsOnly_ok _

theorem failsOnly_names : FailsOnly P (names ctx) := by
  refine (Form.failsOnly_mapping hdefect _).bind fun document _ => ?_
  refine (Form.failsOnly_optionalMapping hdefect _).bind fun components _ => ?_
  refine (Form.failsOnly_optionalRow hdefect _).bind fun keys _ => ?_
  refine FailsOnly.bind (.mapM fun key _ => Form.failsOnly_pascal hdefect key) fun schemas _ => ?_
  exact (failsOnly_namesOfTypes hdefect _ _).bind fun others _ => failsOnly_ok _

end
end Components

/-! ## Operations -/

/-- The schema of a parameter as a value; none but mappings count. -/
theorem Parameter.exists_schema (p : Parameter) :
    ∃ v, p.schema = Schema.ofValue v ∧ v.refs ⊆ (Value.map p.members).refs := by
  unfold Parameter.schema
  split
  · rename_i ms hschema
    exact ⟨_, rfl, Value.refs_field? hschema⟩
  · exact ⟨.null, rfl, List.nil_subset _⟩

namespace Operation

variable {ctx : Context}

/-- What the rows of parameters of an operation hold. -/
theorem refs_of_rows {pathItem operation : Members} {shared own : List Value}
    (hshared : Form.optionalRow (pathItem.field? "parameters") = .ok shared)
    (hown : Form.optionalRow (operation.field? "parameters") = .ok own) {v : Value}
    (hv : v ∈ shared ++ own) :
    v.refs ⊆ (Value.map pathItem).refs ++ (Value.map operation).refs := by
  rcases List.mem_append.1 hv with hv | hv
  · exact List.subset_append_of_subset_left _ (Form.refs_of_optionalRow hshared hv)
  · exact List.subset_append_of_subset_right _ (Form.refs_of_optionalRow hown hv)

theorem refs_of_successResponse? {responses : Members} {response : Value}
    (h : successResponse? responses = some response) :
    response.refs ⊆ (Value.map responses).refs := by
  have hcode : ∀ m ∈ byCode responses, m.2.refs ⊆ (Value.map responses).refs := by
    intro m hm
    refine List.Subset.trans (Members.refs_of_mem_ofList hm) (fun ref href => ?_)
    obtain ⟨e, he, href⟩ := Value.mem_refsOfMembers.1 href
    obtain ⟨written, hwritten, rfl⟩ := List.mem_map.1 he
    exact Value.refsOfMembers_subset _ (Value.refs_of_member hwritten href)
  unfold successResponse? at h
  dsimp only at h
  split at h
  · rename_i found hfound
    obtain rfl := Option.some.inj h
    obtain ⟨code, -, hfield⟩ := List.exists_of_findSome?_eq_some hfound
    exact hcode _ (Members.exists_of_field? hfield)
  · exact hcode _ (Members.exists_of_field? h)

/-- The operations of the target are held by it. -/
theorem refs_of_written {ws : List Written} (h : written ctx = .ok ws) : ∀ w ∈ ws,
    (Value.map w.pathItem).refs ++ w.operation.refs ⊆
      (ctx.registry.document ctx.target).refs := by
  unfold written at h
  obtain ⟨v, hv, h⟩ := Except.bind_eq_ok.1 h
  obtain ⟨paths, hpaths, h⟩ := Except.bind_eq_ok.1 h
  obtain ⟨sorted, hsorted, h⟩ := Except.bind_eq_ok.1 h
  obtain rfl := by simpa [pure, Except.pure] using h
  obtain ⟨document, hdocument, hv⟩ := Except.bind_eq_ok.1 hv
  obtain rfl := by simpa [pure, Except.pure] using hv
  rw [Form.mapping_ok] at hdocument hpaths
  intro w hw
  obtain ⟨⟨path, pathItem⟩, hpath, hw⟩ := List.mem_flatMap.1 hw
  have hitem : pathItem.refs ⊆ (ctx.registry.document ctx.target).refs := by
    have hmember := Value.refs_of_member (Form.mem_of_mem_sorted hsorted hpath)
    refine List.Subset.trans (List.Subset.trans hmember (Value.refsOfMembers_subset _)) ?_
    rw [← hpaths, hdocument]
    exact Value.refs_orEmpty_field? document "paths"
  cases pathItem with
  | map members =>
    obtain ⟨method, -, hmethod⟩ := List.mem_filterMap.1 hw
    obtain ⟨operation, hoperation, rfl⟩ := Option.map_eq_some_iff.1 hmethod
    exact List.append_subset.2 ⟨hitem, List.Subset.trans (Value.refs_field? hoperation) hitem⟩
  | list items => cases hw
  | atom a => cases hw

section
variable {P : Fault → Prop} (hdefect : ∀ d, P (.defect d))
include hdefect

theorem failsOnly_paramMembers (params : List Parameter) (types : List Resolved) :
    FailsOnly P (paramMembers params types) := by
  induction params generalizing types with
  | nil =>
    rw [paramMembers]
    · exact failsOnly_ok []
    · simp
  | cons p params ih =>
    cases types with
    | nil =>
      rw [paramMembers]
      · exact failsOnly_ok []
      · simp
    | cons r types =>
      refine (Form.failsOnly_text hdefect _).bind fun key _ => ?_
      exact (ih types).bind fun rest _ => failsOnly_ok _

theorem failsOnly_nameOf (method : String)
    (path : Atom) (id : Option Value) : FailsOnly P (nameOf method path id) := by
  unfold nameOf
  split
  · exact (Form.failsOnly_text hdefect _).bind fun id _ => failsOnly_ok _
  · split
    · exact failsOnly_ok _
    · exact Form.failsOnly_fail hdefect _

theorem failsOnly_written :
    FailsOnly P (written ctx) := by
  refine FailsOnly.bind ?_ fun v _ => ?_
  · exact (Form.failsOnly_mapping hdefect _).bind fun ms _ => failsOnly_ok _
  refine (Form.failsOnly_mapping hdefect _).bind fun paths _ => ?_
  exact (Form.failsOnly_sorted hdefect _ _).bind fun sorted _ => failsOnly_ok _

end
end Operation

namespace Reference.Laws

open Operation

variable {P : Fault → Prop} {Q : Context → List String → Prop} (laws : Laws P Q) {ctx : Context}
include laws

/-- `Q` holds of what a parameter refers to where it is read. -/
theorem deref {ms : Members} {p : Parameter} (h : Q ctx (Value.map ms).refs)
    (hp : Operation.deref ctx ms = .ok p) : Q p.owner (Value.map p.members).refs := by
  unfold Operation.deref at hp
  split at hp
  · rename_i ref href
    obtain ⟨⟨members, owner⟩, hfollow, hp⟩ := Except.bind_eq_ok.1 hp
    obtain rfl : ⟨members, owner⟩ = p := by simpa [pure, Except.pure] using hp
    exact laws.followFor (laws.of_ref h href) hfollow
  · obtain rfl : ⟨ms, ctx⟩ = p := by simpa using hp
    exact h

theorem failsOnly_deref {ms : Members} (h : Q ctx (Value.map ms).refs) :
    FailsOnly P (Operation.deref ctx ms) := by
  unfold Operation.deref
  split
  · rename_i ref href
    exact (laws.failsOnly_followFor (laws.of_ref h href)).bind fun _ _ => failsOnly_ok _
  · exact failsOnly_ok _

section
variable {pathItem operation : Members}
  (h : Q ctx ((Value.map pathItem).refs ++ (Value.map operation).refs))
include h

theorem parameters {params : List Parameter}
    (hparams : Operation.parameters ctx pathItem operation = .ok params) :
    ∀ p ∈ params, Q p.owner (Value.map p.members).refs := by
  obtain ⟨shared, own, placed, hshared, hown, hplaced, rfl⟩ := parameters_ok hparams
  intro p hp
  obtain ⟨e, he, rfl⟩ := List.mem_map.1 hp
  exact collect_forall (Q := fun p => Q p.owner (Value.map p.members).refs) (by simp)
    (fun ms hms p hp => laws.deref (laws.mono _ _ _ h (refs_of_rows hshared hown hms)) hp) hplaced
    e he

omit h in
theorem failsOnly_collect {written : List Value} (h : ∀ v ∈ written, Q ctx v.refs)
    (acc : Placed) : FailsOnly P (collect ctx acc written) := by
  induction written generalizing acc with
  | nil => exact failsOnly_ok _
  | cons v rest ih =>
    rw [List.forall_mem_cons] at h
    obtain ⟨hv, hrest⟩ := h
    have hrest := ih hrest
    cases v with
    | map ms =>
      rw [collect]
      refine (laws.failsOnly_deref hv).bind fun p _ => ?_
      split
      · exact hrest acc
      · refine (Form.failsOnly_key laws.defect _).bind fun name _ => ?_
        exact (Form.failsOnly_key laws.defect _).bind fun place _ => hrest _
    | list items =>
      rw [collect]
      · exact hrest acc
      · simp
    | atom a =>
      rw [collect]
      · exact hrest acc
      · simp

theorem failsOnly_parameters : FailsOnly P (Operation.parameters ctx pathItem operation) := by
  refine (Form.failsOnly_optionalRow laws.defect _).bind fun shared hshared => ?_
  refine (Form.failsOnly_optionalRow laws.defect _).bind fun own hown => ?_
  refine (laws.failsOnly_collect (fun v hv => ?_) []).bind fun placed _ => failsOnly_ok _
  exact laws.mono _ _ _ h (refs_of_rows hshared hown hv)

end

theorem failsOnly_paramsOf {query : List Parameter}
    (h : ∀ p ∈ query, Q p.owner (Value.map p.members).refs) (name : String) :
    FailsOnly P (paramsOf ctx name query).outcome := by
  unfold paramsOf
  split_ifs
  · exact failsOnly_ok _
  · refine Timed.failsOnly_map _ ?_
    refine Timed.failsOnly_bind (Resolve.failsOnly_childNames
      (fun _ _ => Form.failsOnly_pascal laws.defect _) (ctx.failsOnly_isDeclared laws.defect) _)
      fun names _ => ?_
    refine Timed.failsOnly_bind (Timed.failsOnly_all fun x hx => ?_) fun types _ => ?_
    · obtain ⟨⟨p, n⟩, hp, rfl⟩ := List.mem_map.1 hx
      obtain ⟨v, hschema, hrefs⟩ := Parameter.exists_schema p
      dsimp only
      rw [hschema]
      exact laws.failsOnly_slot (laws.mono _ _ _ (h p (List.of_mem_zip hp).1) hrefs) n false
    · exact Timed.failsOnly_bind (failsOnly_paramMembers laws.defect _ _)
        fun members _ => failsOnly_ok _

theorem failsOnly_pathParameters {params : List Parameter}
    (h : ∀ p ∈ params, Q p.owner (Value.map p.members).refs) :
    FailsOnly P (pathParameters params).outcome := by
  induction params with
  | nil => exact failsOnly_ok _
  | cons p rest ih =>
    rw [List.forall_mem_cons] at h
    rw [pathParameters]
    refine Timed.failsOnly_bind (laws.failsOnly_value (laws.mono _ _ _ h.1 ?_) none) fun r _ => ?_
    · exact Value.refs_orEmpty_field? _ _
    · exact Timed.failsOnly_bind (ih h.2) fun rs _ => failsOnly_ok _

theorem failsOnly_contentOf {component : Option Value}
    (h : ∀ v, component = some v → Q ctx v.refs) (name : String) :
    FailsOnly P (contentOf ctx name component).outcome := by
  unfold contentOf
  split
  · rename_i ms
    have hms := h _ rfl
    unfold content
    split
    · rename_i ref href
      exact Timed.failsOnly_bind (laws.failsOnly_info (laws.of_ref hms href))
        fun info _ => failsOnly_ok _
    · refine Timed.failsOnly_bind (Components.failsOnly_jsonSchemaOf laws.defect ms)
        fun schema hschema => ?_
      cases schema with
      | none => exact failsOnly_ok _
      | some schema =>
        refine Timed.failsOnly_bind (laws.failsOnly_slot (laws.mono _ _ _ hms ?_) _ _)
          fun r _ => failsOnly_ok _
        exact Components.refs_of_jsonSchemaOf hschema
  · exact failsOnly_ok _

/-- The types of an operation. -/
theorem failsOnly_make {pathItem : Members} {operation : Value}
    (h : Q ctx ((Value.map pathItem).refs ++ operation.refs)) (method : String) (path : Atom) :
    FailsOnly P (make ctx method path pathItem operation).outcome := by
  unfold make
  refine Timed.failsOnly_bind (Form.failsOnly_mapping laws.defect _) fun ms hms => ?_
  obtain rfl := Form.mapping_ok.1 hms
  have hoperation : Q ctx (Value.map ms).refs :=
    laws.mono _ _ _ h (List.subset_append_right _ _)
  refine Timed.failsOnly_bind (failsOnly_nameOf laws.defect _ _ _) fun name _ => ?_
  refine Timed.failsOnly_bind (laws.failsOnly_parameters h) fun params hparams => ?_
  have howned := laws.parameters h hparams
  refine Timed.failsOnly_bind (laws.failsOnly_pathParameters
    fun p hp => howned p (List.mem_filter.1 hp).1) fun pathParams _ => ?_
  refine Timed.failsOnly_bind (Components.failsOnly_names laws.defect) fun claimed _ => ?_
  refine Timed.failsOnly_bind (laws.failsOnly_paramsOf
    (fun p hp => howned p (List.mem_filter.1 hp).1) _) fun query _ => ?_
  refine Timed.failsOnly_bind (laws.failsOnly_contentOf
    (fun v hv => laws.mono _ _ _ hoperation (Value.refs_field? hv)) _) fun body _ => ?_
  refine Timed.failsOnly_bind (Form.failsOnly_optionalMapping laws.defect _)
    fun responses hresponses => ?_
  refine Timed.failsOnly_bind (laws.failsOnly_contentOf
    (fun v hv => laws.mono _ _ _ hoperation ?_) _) fun response _ => failsOnly_ok _
  exact List.Subset.trans (refs_of_successResponse? hv) (Form.refs_of_optionalMapping hresponses)

end Reference.Laws
end ApiTypes

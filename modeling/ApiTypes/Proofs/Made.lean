import ApiTypes.Bundle
import ApiTypes.Proofs.Shape

/-!
# What is made of a document

For each step from a document to all that a run declares, what was made on the way when it succeeds:
`Definition.ofSchema_ok`, `Definition.ofEntry_ok`, `Definition.ofDocument_ok`;
`Operation.pathParameters_ok`, `Operation.paramsInterface_ok`, `Operation.contentOf_ok`,
`Operation.make_ok`, `Operation.ofTarget_ok`; `Bundle.make_ok`, `Bundle.volume_ok`.
-/

namespace ApiTypes

namespace Definition

variable {ctx : Context} {ds : List Declaration}

theorem ofSchema_ok {name : String} {s : Schema} :
    (ofSchema ctx name s).outcome = .ok ds ↔
      ∃ r, (Resolve.value ctx s (some name)).outcome = .ok r ∧
        declarations name s.comment? r = ds := by
  unfold ofSchema
  rw [Timed.outcome_bind_ok]
  simp only [Timed.outcome_mapError_ok, Timed.outcome_pure, Except.ok.injEq]

theorem ofEntry_ok {e : Components.Entry} :
    (ofEntry ctx e).outcome = .ok ds ↔
      ∃ base name, Form.pascal e.name = .ok base ∧ Form.suffixed base e.suffix = .ok name ∧
        (ofSchema ctx name (Schema.ofValue e.schema)).outcome = .ok ds := by
  unfold ofEntry
  simp only [Timed.outcome_bind_ok, Timed.outcome_ofExcept]
  constructor
  · rintro ⟨base, hbase, name, hname, h⟩
    exact ⟨base, name, hbase, hname, h⟩
  · rintro ⟨base, name, hbase, hname, h⟩
    exact ⟨base, hbase, name, hname, h⟩

theorem ofDocument_ok :
    (ofDocument ctx).outcome = .ok ds ↔
      ∃ entries results, Components.entries ctx = .ok entries ∧
        List.Forall₂ (fun e es => (ofEntry ctx e).outcome = .ok es) entries results ∧
        results.flatten = ds := by
  unfold ofDocument
  simp only [Timed.outcome_bind_ok, Timed.outcome_ofExcept, Timed.outcome_all_ok,
    List.forall₂_map_left_iff, Timed.outcome_pure, Except.ok.injEq]
  constructor
  · rintro ⟨entries, hentries, results, hresults, h⟩
    exact ⟨entries, results, hentries, hresults, h⟩
  · rintro ⟨entries, results, hentries, hresults, h⟩
    exact ⟨entries, hentries, results, hresults, h⟩

end Definition

namespace Operation

variable {ctx : Context}

/-- Path parameters are resolved without a name, each in its own document. -/
theorem pathParameters_ok {params : List Parameter} {rs : List (Value × Resolved)}
    (h : (pathParameters params).outcome = .ok rs) :
    List.Forall₂ (fun p r => r.1 = p.name ∧
      (Resolve.value p.owner (Schema.ofValue (Value.orEmpty (p.members.field? "schema")))
        none).outcome = .ok r.2) params rs := by
  induction params generalizing rs with
  | nil =>
    rw [pathParameters] at h
    obtain rfl : [] = rs := by simpa using h
    exact .nil
  | cons p rest ih =>
    rw [pathParameters] at h
    obtain ⟨r, hr, h⟩ := Timed.outcome_bind_ok.1 h
    obtain ⟨later, hlater, h⟩ := Timed.outcome_bind_ok.1 h
    obtain rfl : (p.name, r) :: later = rs := by simpa using h
    exact .cons ⟨rfl, hr⟩ (ih hlater)

/-- The interface of the query parameters: its members are resolved in slots, each in its own
document. -/
theorem paramsInterface_ok {name : String} {query : List Parameter} {r : Resolved}
    (h : (paramsInterface ctx name query).outcome = .ok r) :
    ∃ names types members, Resolve.childNames ctx (some name) (query.map (·.name)) = .ok names ∧
      List.Forall₂ (fun x t => (Resolve.slot x.1.owner x.1.schema x.2 false).outcome = .ok t)
        (query.zip names) types ∧
      paramMembers query types = .ok members ∧
      r = { Resolved.plain (.name name) "object" with
        imports := [.here name]
        declarations := Resolve.declarationsOf types ++
          [⟨name, .interface none name (.object members), Resolve.importsOf types⟩] } := by
  unfold paramsInterface at h
  obtain ⟨names, hnames, h⟩ := Timed.outcome_bind_ok.1 h
  obtain ⟨types, htypes, h⟩ := Timed.outcome_bind_ok.1 h
  obtain ⟨members, hmembers, h⟩ := Timed.outcome_bind_ok.1 h
  rw [Timed.outcome_all_ok, List.forall₂_map_left_iff] at htypes
  exact ⟨names, types, members, hnames, htypes, hmembers, by simpa using h.symm⟩

theorem paramsOf_ok {name : String} {query : List Parameter} {params : Option Resolved} :
    (paramsOf ctx name query).outcome = .ok params ↔
      if query.isEmpty then params = none
      else ∃ r, (paramsInterface ctx name query).outcome = .ok r ∧ params = some r := by
  unfold paramsOf
  split
  · simp [eq_comm]
  · rw [Timed.outcome_map_ok]
    simp only [eq_comm]

/-- The members of the params interface have the types that are given for them. -/
theorem mem_paramMembers {params : List Parameter} {types : List Resolved}
    {members : List (MemberHead × TypeExpr)} (h : paramMembers params types = .ok members)
    {m : MemberHead × TypeExpr} (hm : m ∈ members) : ∃ r ∈ types, m.2 = r.type := by
  induction params generalizing types members with
  | nil =>
    obtain rfl : [] = members := by simpa [paramMembers] using h
    cases hm
  | cons p params ih =>
    cases types with
    | nil =>
      obtain rfl : [] = members := by simpa [paramMembers] using h
      cases hm
    | cons r types =>
      rw [paramMembers] at h
      obtain ⟨key, -, h⟩ := Except.bind_eq_ok.1 h
      obtain ⟨rest, hrest, h⟩ := Except.bind_eq_ok.1 h
      obtain rfl := by simpa [pure, Except.pure] using h
      rcases List.mem_cons.1 hm with rfl | hm
      · exact ⟨r, List.mem_cons_self .., rfl⟩
      · obtain ⟨q, hq, hmq⟩ := ih hrest hm
        exact ⟨q, List.mem_cons_of_mem _ hq, hmq⟩

/-- A body or a response with a type is a reference, or has a schema that is resolved in a slot. -/
theorem contentOf_ok {name : String} {component : Option Value} {r : Resolved}
    (h : (contentOf ctx name component).outcome = .ok (some r)) :
    ∃ ms, component = some (.map ms) ∧
      ((∃ ref info, Schema.refOf? ms = some ref ∧ Reference.info ctx ref = .ok info ∧
        r = { Resolved.plain (.name info.name) "object" with
          imports := [⟨info.name, some info.document⟩], isRef := true }) ∨
      ∃ schema, Schema.refOf? ms = none ∧ Components.jsonSchemaOf ms = .ok (some schema) ∧
        (Resolve.slot ctx (Schema.ofValue (.map schema)) (some name) false).outcome = .ok r) := by
  unfold contentOf at h
  split at h
  · rename_i ms
    refine ⟨ms, rfl, ?_⟩
    unfold content at h
    split at h
    · rename_i ref href
      obtain ⟨info, hinfo, h⟩ := Timed.outcome_bind_ok.1 h
      exact Or.inl ⟨ref, info, href, hinfo, by simpa using h.symm⟩
    · rename_i hnone
      obtain ⟨schema, hschema, h⟩ := Timed.outcome_bind_ok.1 h
      cases schema with
      | none => simp at h
      | some schema =>
        obtain ⟨q, hq, h⟩ := Timed.outcome_bind_ok.1 h
        obtain rfl : q = r := by simpa using h
        exact Or.inr ⟨schema, hnone, hschema, hq⟩
  · simp at h

/-- What the types of params, body and response are named, after the type name of the operation. -/
def parts : List String := ["Params", "Body", "Response"]

/-- The names for these types. -/
def partNames (claimed : List String) (op : Operation) : List String :=
  parts.map fun part => freeName claimed (op.typeName ++ part)

/-- What is made on the way to the types of an operation. -/
structure Steps (ctx : Context) (method : String) (path : Atom) (pathItem operation : Members)
    (op : Operation) where
  parameters : List Parameter
  claimed : List String
  pathParams : List (Value × Resolved)
  params : Option Resolved
  body : Option Resolved
  responses : Members
  response : Option Resolved
  name_ok : nameOf method path (operation.field? "operationId") = .ok op.name
  parameters_ok : Operation.parameters ctx pathItem operation = .ok parameters
  claimed_ok : Components.names ctx = .ok claimed
  pathParams_ok :
    (pathParameters (parameters.filter (·.isIn "path"))).outcome = .ok pathParams
  params_ok : (paramsOf ctx (freeName claimed (Name.pascal op.name ++ "Params"))
    (parameters.filter (·.isIn "query"))).outcome = .ok params
  body_ok : (contentOf ctx (freeName claimed (Name.pascal op.name ++ "Body"))
    (operation.field? "requestBody")).outcome = .ok body
  responses_ok : Form.optionalMapping (operation.field? "responses") = .ok responses
  response_ok : (contentOf ctx (freeName claimed (Name.pascal op.name ++ "Response"))
    (successResponse? responses)).outcome = .ok response
  pathParams_eq : op.pathParams = pathParams.map fun p => (p.1, p.2.type)
  params_eq : op.params = params.map (·.type)
  body_eq : op.body = body.map (·.type)
  response_eq : op.response = response.map (·.type)
  method_eq : op.method = method
  path_eq : op.path = path

/-- The types that an operation is made of. -/
def Steps.all {ctx : Context} {method : String} {path : Atom} {pathItem operation : Members}
    {op : Operation} (s : Steps ctx method path pathItem operation op) : List Resolved :=
  s.pathParams.map Prod.snd ++ s.params.toList ++ s.body.toList ++ s.response.toList

/-- What holds of the types of path parameters, of the params interface, and of what bodies and
responses have, holds of all types of an operation. -/
theorem Steps.forall_all {method : String} {path : Atom} {pathItem operation : Members}
    {op : Operation} (s : Steps ctx method path pathItem operation op) {P : Resolved → Prop}
    (hpath : ∀ p ∈ s.parameters, ∀ r,
      (Resolve.value p.owner (Schema.ofValue (Value.orEmpty (p.members.field? "schema")))
        none).outcome = .ok r → P r)
    (hparams : ∀ name ∈ partNames s.claimed op, ∀ r,
      (paramsInterface ctx name (s.parameters.filter (·.isIn "query"))).outcome = .ok r → P r)
    (hcontent : ∀ name ∈ partNames s.claimed op, ∀ component r,
      (contentOf ctx name component).outcome = .ok (some r) → P r) :
    ∀ r ∈ s.all, P r := by
  intro r hr
  simp only [Steps.all, List.mem_append, Option.mem_toList, List.mem_map] at hr
  rcases hr with ((⟨p, hp, rfl⟩ | hr) | hr) | hr
  · obtain ⟨q, hq, -, hvalue⟩ := exists_left_of_forall₂ (pathParameters_ok s.pathParams_ok) hp
    exact hpath q (List.mem_filter.1 hq).1 p.2 hvalue
  · have hok := paramsOf_ok.1 s.params_ok
    split at hok
    · rw [hok] at hr
      cases hr
    · obtain ⟨q, hq, hsome⟩ := hok
      rw [hsome] at hr
      cases hr
      exact hparams _ (List.mem_map.2 ⟨"Params", by decide, rfl⟩) _ hq
  · exact hcontent _ (List.mem_map.2 ⟨"Body", by decide, rfl⟩) _ r
      (Option.mem_def.1 hr ▸ s.body_ok)
  · exact hcontent _ (List.mem_map.2 ⟨"Response", by decide, rfl⟩) _ r
      (Option.mem_def.1 hr ▸ s.response_ok)

theorem make_ok {method : String} {path : Atom} {pathItem : Members} {operation : Value}
    {op : Operation} (h : (make ctx method path pathItem operation).outcome = .ok op) :
    ∃ ms, operation = .map ms ∧ ∃ s : Steps ctx method path pathItem ms op,
      op.imports = Resolve.importsOf s.all ∧ op.declarations = Resolve.declarationsOf s.all := by
  unfold make at h
  obtain ⟨ms, hms, h⟩ := Timed.outcome_bind_ok.1 h
  obtain ⟨name, hname, h⟩ := Timed.outcome_bind_ok.1 h
  obtain ⟨parameters, hparameters, h⟩ := Timed.outcome_bind_ok.1 h
  obtain ⟨pathParams, hpathParams, h⟩ := Timed.outcome_bind_ok.1 h
  obtain ⟨claimed, hclaimed, h⟩ := Timed.outcome_bind_ok.1 h
  obtain ⟨params, hparams, h⟩ := Timed.outcome_bind_ok.1 h
  obtain ⟨body, hbody, h⟩ := Timed.outcome_bind_ok.1 h
  obtain ⟨responses, hresponses, h⟩ := Timed.outcome_bind_ok.1 h
  obtain ⟨response, hresponse, h⟩ := Timed.outcome_bind_ok.1 h
  rw [Timed.outcome_pure, Except.ok.injEq] at h
  subst h
  refine ⟨ms, Form.mapping_ok.1 hms,
    { parameters, claimed, pathParams, params, body, responses, response
      name_ok := hname, parameters_ok := hparameters, claimed_ok := hclaimed
      pathParams_ok := hpathParams, params_ok := hparams, body_ok := hbody
      responses_ok := hresponses, response_ok := hresponse
      pathParams_eq := rfl, params_eq := rfl, body_eq := rfl, response_eq := rfl
      method_eq := rfl, path_eq := rfl }, rfl, rfl⟩

theorem ofTarget_ok {ops : List Operation} :
    (ofTarget ctx).outcome = .ok ops ↔
      ∃ ws, written ctx = .ok ws ∧ List.Forall₂ (fun w op =>
        (make ctx w.method w.path w.pathItem w.operation).outcome = .ok op) ws ops := by
  unfold ofTarget ofWritten
  simp only [Timed.outcome_bind_ok, Timed.outcome_ofExcept, Timed.outcome_all_ok,
    List.forall₂_map_left_iff, Timed.outcome_mapError_ok]

end Operation

namespace Bundle

/-- The context in which the declarations of a document are made. -/
def contextOf (config : Config) (documents : Registry) (key : String) : Context :=
  .start documents key config.overrides

/-- What is made on the way to a bundle: the operations, the declarations of the target, and those
of each other document. -/
theorem make_ok {config : Config} {target : String} {documents : Registry} {b : Bundle}
    (h : make config target documents = .ok b) :
    ∃ own others,
      b.target = target ∧ b.folders = Layout.folders target (keysOf documents) ∧
      (Operation.ofTarget (contextOf config documents target)).outcome = .ok b.operations ∧
      (Definition.ofDocument (contextOf config documents target)).outcome = .ok own ∧
      b.volumes = volume b.folders target (own ++ b.operations.flatMap (·.declarations)) ::
        others ∧
      List.Forall₂ (fun key v => ∃ ds,
        (Definition.ofDocument (contextOf config documents key)).outcome = .ok ds ∧
        v = volume b.folders key ds) ((keysOf documents).filter (· ≠ target)) others := by
  unfold make at h
  obtain ⟨operations, hoperations, h⟩ := Except.bind_eq_ok.1 h
  obtain ⟨own, hown, h⟩ := Except.bind_eq_ok.1 h
  obtain ⟨others, hothers, h⟩ := Except.bind_eq_ok.1 h
  obtain ⟨info, -, h⟩ := Except.bind_eq_ok.1 h
  obtain rfl := by simpa [pure, Except.pure] using h
  refine ⟨own, others, rfl, rfl, hoperations, hown, rfl, ?_⟩
  refine (Except.mapM_eq_ok hothers).imp fun key v hv => ?_
  obtain ⟨ds, hds, hv⟩ := Except.bind_eq_ok.1 hv
  exact ⟨ds, hds, by simpa [pure, Except.pure] using hv.symm⟩

/-- What a run declares for a document: the first of each name among what its entries are declared
with and, in the target, what operations need. -/
theorem volume_ok {config : Config} {target : String} {documents : Registry} {b : Bundle}
    (h : make config target documents = .ok b) {v : Volume} (hv : v ∈ b.volumes) :
    ∃ ds, (Definition.ofDocument (contextOf config documents v.document)).outcome = .ok ds ∧
      v.declarations = firstOfName (·.name)
        (ds ++ if v.document = b.target then b.operations.flatMap (·.declarations) else []) := by
  obtain ⟨own, others, htarget, -, -, hown, hvolumes, hothers⟩ := make_ok h
  rw [hvolumes] at hv
  rcases List.mem_cons.1 hv with rfl | hv
  · refine ⟨own, hown, ?_⟩
    show firstOfName _ _ = firstOfName _ (own ++ if target = b.target then _ else [])
    rw [if_pos htarget.symm]
  · obtain ⟨key, hkey, ds, hds, rfl⟩ := exists_left_of_forall₂ hothers hv
    have hne : key ≠ b.target := by
      rw [htarget]
      simpa using (List.mem_filter.1 hkey).2
    refine ⟨ds, hds, ?_⟩
    show firstOfName _ ds = firstOfName _ (ds ++ if key = b.target then _ else [])
    rw [if_neg hne, List.append_nil]

end Bundle
end ApiTypes

import ApiTypes.Proofs.Mirrors

/-!
# Operations under other keys

* `Parameter.moved` : a parameter that is read in another registry;
* `Context.Within.parameters_moved`, `Context.Within.contentOf_moved` and the like : the parts of an
  operation have the same types under other keys;
* `Operation.make_moved`, `Operation.ofTarget_moved` : so have operations.
-/

namespace ApiTypes

variable {move : String → String} {scope : String → Prop} {r r' : Registry}

/-- A parameter whose context reads another registry. -/
def Parameter.moved (move : String → String) (registry : Registry) (p : Parameter) : Parameter :=
  { p with owner := p.owner.moved move registry }

@[simp]
theorem Parameter.moved_members (p : Parameter) : (p.moved move r').members = p.members := rfl

theorem Keyed.putBy_map {κ α : Type} {f : α → α} (same : κ → κ → Bool) (m : Keyed κ α) (key : κ)
    (v : α) : putBy same (m.map (Prod.map id f)) key (f v) =
      (putBy same m key v).map (Prod.map id f) := by
  induction m with
  | nil => rfl
  | cons e rest ih =>
    obtain ⟨k, w⟩ := e
    rw [List.map_cons]
    dsimp only [Prod.map, id]
    rw [putBy, putBy]
    split_ifs
    · rfl
    · rw [List.map_cons]
      exact congrArg _ ih

section
variable (hmirrors : r.Mirrors move scope r') {ctx : Context}
include hmirrors

namespace Context.Within

/-! ## Parameters -/

theorem deref_moved {ms : Members} (h : ctx.Within scope r (Value.map ms).refs) :
    Except.Carries (·.moved move r') (Operation.deref ctx ms)
      (Operation.deref (ctx.moved move r') ms) := by
  unfold Operation.deref
  split
  · rename_i ref href
    exact (((laws hmirrors).of_ref h href).follow_moved hmirrors).bind fun e _ =>
      .ok (Parameter.mk e.1 e.2)
  · exact .ok (Parameter.mk ms ctx)

theorem collect_moved {written : List Value} (h : ∀ v ∈ written, ctx.Within scope r v.refs)
    (acc : Operation.Placed) :
    Except.Carries (List.map (Prod.map id (Parameter.moved move r')))
      (Operation.collect ctx acc written)
      (Operation.collect (ctx.moved move r') (acc.map (Prod.map id (Parameter.moved move r'))) written) := by
  induction written generalizing acc with
  | nil => exact .ok acc
  | cons v rest ih =>
    rw [List.forall_mem_cons] at h
    have hrest := ih h.2
    cases v with
    | map ms =>
      rw [Operation.collect, Operation.collect]
      refine (h.1.deref_moved hmirrors).bind fun p _ => ?_
      rw [Parameter.moved_members]
      split
      · exact hrest acc
      · refine .same fun name _ => .same fun place _ => ?_
        rw [Keyed.putBy_map]
        exact hrest _
    | list items =>
      rw [Operation.collect, Operation.collect]
      · exact hrest acc
      · simp
      · simp
    | atom a =>
      rw [Operation.collect, Operation.collect]
      · exact hrest acc
      · simp
      · simp

theorem parameters_moved {pathItem operation : Members}
    (h : ctx.Within scope r ((Value.map pathItem).refs ++ (Value.map operation).refs)) :
    Except.Carries (List.map (·.moved move r')) (Operation.parameters ctx pathItem operation)
      (Operation.parameters (ctx.moved move r') pathItem operation) := by
  unfold Operation.parameters
  refine .same fun shared hshared => .same fun own hown => ?_
  refine (collect_moved hmirrors (fun v hv => h.mono (Operation.refs_of_rows hshared hown hv))
    []).bind fun placed _ => ?_
  have hparameters : (placed.map (Prod.map id (Parameter.moved move r'))).map Prod.snd =
      (placed.map Prod.snd).map (·.moved move r') := by
    rw [List.map_map, List.map_map]
    rfl
  rw [hparameters]
  exact .ok _

/-! ## The types of parameters -/

section
variable {params : List Parameter}
  (h : ∀ p ∈ params, p.owner.Within scope r (Value.map p.members).refs)
include h

theorem pathParameters_moved :
    Timed.Carries (List.map (Prod.map id (·.moved move))) (Operation.pathParameters params)
      (Operation.pathParameters (params.map (·.moved move r'))) := by
  induction params with
  | nil => exact .pure []
  | cons p rest ih =>
    rw [List.forall_mem_cons] at h
    rw [List.map_cons, Operation.pathParameters, Operation.pathParameters]
    have hschema := h.1.mono (Value.refs_orEmpty_field? p.members "schema")
    refine (hschema.value_moved hmirrors none).bind fun t _ => (ih h.2).bind fun ts _ => ?_
    exact .pure ((p.name, t) :: ts)

omit hmirrors h in
theorem paramMembers_moved (params : List Parameter) (types : List Resolved) :
    Operation.paramMembers (params.map (·.moved move r')) (types.map (·.moved move)) =
      Operation.paramMembers params types := by
  induction params generalizing types with
  | nil =>
    rw [List.map_nil, Operation.paramMembers, Operation.paramMembers]
    · simp
    · simp
  | cons p rest ih =>
    cases types with
    | nil =>
      rw [List.map_nil, Operation.paramMembers, Operation.paramMembers]
      · simp
      · simp
    | cons t types =>
      rw [List.map_cons, List.map_cons, Operation.paramMembers, Operation.paramMembers, ih]
      rfl

theorem paramsOf_moved (hnames : Resolve.NamesAgree ctx (ctx.moved move r')) (name : String) :
    Timed.Carries (Option.map (·.moved move)) (Operation.paramsOf ctx name params)
      (Operation.paramsOf (ctx.moved move r') name (params.map (·.moved move r'))) := by
  unfold Operation.paramsOf
  rw [List.isEmpty_map]
  split_ifs
  · exact .pure none
  refine Timed.Carries.map (f := (·.moved move)) ?_ fun _ => rfl
  unfold Operation.paramsInterface
  rw [hnames, List.map_map]
  refine .same fun names _ => ?_
  refine (Timed.Carries.all (f := (·.moved move)) ?_).bind fun types _ => ?_
  · rw [List.zip_map_left, List.map_map, List.forall₂_map_left_iff, List.forall₂_map_right_iff,
      List.forall₂_same]
    rintro ⟨p, n⟩ hp
    obtain ⟨v, hschema, hrefs⟩ := Parameter.exists_schema p
    have hslot := ((h p (List.of_mem_zip hp).1).mono hrefs).slot_moved hmirrors n false
    rwa [← hschema] at hslot
  · rw [paramMembers_moved, Resolve.importsOf_moved, Resolve.declarationsOf_moved]
    refine .same fun members _ => ?_
    intro t ht
    obtain rfl := Except.ok.inj ht
    simp only [Timed.outcome_pure, Resolved.moved, Declaration.moved, List.map_append, List.map_cons,
      List.map_nil, Import.moved_here]

end

/-! ## Bodies and responses -/

theorem contentOf_moved {component : Option Value}
    (h : ∀ v, component = some v → ctx.Within scope r v.refs) (name : String) :
    Timed.Carries (Option.map (·.moved move)) (Operation.contentOf ctx name component)
      (Operation.contentOf (ctx.moved move r') name component) := by
  unfold Operation.contentOf
  split
  · rename_i ms
    have hms := h _ rfl
    unfold Operation.content
    split
    · rename_i ref href
      refine (Timed.Carries.ofExcept (((laws hmirrors).of_ref hms href).info_moved hmirrors)).bind
        fun info _ => ?_
      exact .pure (some { Resolved.plain (.name info.name) "object" with
        imports := [⟨info.name, some info.document⟩]
        isRef := true })
    · refine .same fun schema hschema => ?_
      cases schema with
      | none => exact .pure none
      | some schema =>
        have hheld := hms.mono (Components.refs_of_jsonSchemaOf hschema)
        exact (hheld.slot_moved hmirrors _ _).bind fun t _ => .pure (some t)
  · exact .pure none

end Context.Within

/-! ## Operations -/

namespace Operation

theorem names_moved (h : ctx.Within scope r []) :
    Components.names (ctx.moved move r') = Components.names ctx := by
  have htypes : ∀ components types, Components.namesOfTypes (ctx.moved move r') components types =
      Components.namesOfTypes ctx components types := by
    intro components types
    induction types with
    | nil => rfl
    | cons componentType rest ih =>
      rw [Components.namesOfTypes, Components.namesOfTypes, ih]
      rfl
  unfold Components.names
  simp only [h.targetDocument_moved hmirrors, htypes]

theorem written_moved (h : ctx.Within scope r []) :
    written (ctx.moved move r') = written ctx := by
  unfold written
  rw [h.targetDocument_moved hmirrors]

/-- An operation has the same types. -/
theorem make_moved {pathItem : Members} {operation : Value}
    (h : ctx.Within scope r ((Value.map pathItem).refs ++ operation.refs)) (method : String)
    (path : Atom) :
    Timed.Carries (·.moved move) (make ctx method path pathItem operation)
      (make (ctx.moved move r') method path pathItem operation) := by
  have hnone : ctx.Within scope r [] := h.mono (List.nil_subset _)
  have hlaws := Context.Within.laws hmirrors
  unfold make
  refine .same fun ms hms => .same fun name _ => ?_
  obtain rfl := Form.mapping_ok.1 hms
  have hoperation : ctx.Within scope r (Value.map ms).refs := h.mono (List.subset_append_right _ _)
  refine (Timed.Carries.ofExcept (h.parameters_moved hmirrors)).bind fun params hparams => ?_
  have hwithin := hlaws.parameters h hparams
  have hfilter : ∀ word, (params.map (·.moved move r')).filter (·.isIn word) =
      (params.filter (·.isIn word)).map (·.moved move r') := fun word => by
    rw [List.filter_map]
    rfl
  have hin : ∀ word, ∀ p ∈ params.filter (·.isIn word),
      p.owner.Within scope r (Value.map p.members).refs := fun word p hp =>
    hwithin p (List.mem_filter.1 hp).1
  dsimp only
  rw [hfilter, hfilter, names_moved hmirrors hnone]
  refine (Context.Within.pathParameters_moved hmirrors (hin "path")).bind fun pathParams _ => ?_
  refine .same fun claimed _ => ?_
  refine (Context.Within.paramsOf_moved hmirrors (hin "query") (hnone.names_agree hmirrors)
    _).bind fun query _ => ?_
  refine (Context.Within.contentOf_moved hmirrors
    (fun v hv => hoperation.mono (Value.refs_field? hv)) _).bind fun body _ => ?_
  refine .same fun responses hresponses => ?_
  refine (Context.Within.contentOf_moved hmirrors (fun v hv => hoperation.mono (List.Subset.trans
    (refs_of_successResponse? hv) (Form.refs_of_optionalMapping hresponses))) _).bind
      fun response _ => ?_
  have hall : (pathParams.map (Prod.map id (·.moved move))).map Prod.snd ++
      (query.map (·.moved move)).toList ++ (body.map (·.moved move)).toList ++
      (response.map (·.moved move)).toList =
      (pathParams.map Prod.snd ++ query.toList ++ body.toList ++ response.toList).map
        (Resolved.moved move) := by
    simp only [List.map_append, List.map_map, Option.toList_map]
    rfl
  rw [hall, Resolve.importsOf_moved, Resolve.declarationsOf_moved, List.map_map, Option.map_map,
    Option.map_map, Option.map_map]
  exact .pure _

/-- The operations of the target have the same types. -/
theorem ofTarget_moved (h : ctx.Within scope r (ctx.registry.document ctx.target).refs) :
    Timed.Carries (List.map (·.moved move)) (ofTarget ctx) (ofTarget (ctx.moved move r')) := by
  unfold ofTarget
  rw [written_moved hmirrors (h.mono (List.nil_subset _))]
  refine .same fun ws hws => .all ?_
  rw [List.forall₂_map_left_iff, List.forall₂_map_right_iff, List.forall₂_same]
  intro w hw
  exact (make_moved hmirrors (h.mono (refs_of_written hws w hw)) w.method w.path).mapError _ _

end Operation
end
end ApiTypes

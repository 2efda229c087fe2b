import ApiTypes.Proofs.MemberOrder
import ApiTypes.Proofs.Revisions

/-!
# Operations of revised documents

* `Revision.SameUse` : a type is written, imported for and declared for in the same way;
* `Revision.SameMembers`, `Revision.SameParameter` : what may be a parameter before and after a
  revision, of which the same is read, and one with its name and place;
* `Revision.Pair.deref` : what a parameter's reference leads to is such;
* `Revision.SameRow`, `Revision.Pair.parameters` : an operation has the same parameters if each in
  its rows is the same, written or referred to;
* `Revision.Pair.make` : so it has the same types.
-/

namespace ApiTypes

/-- The document that is being read holds the references that are read. -/
theorem Reference.owning_laws : Laws (fun _ => True) Context.Owns where
  defect _ := trivial
  mono _ _ _ h hsub := h.mono hsub
  fails _ _ _ _ _ := trivial
  found _ _ located _ hlocated := (locate_owns hlocated).entering located.document located.pointer

/-- A value that is no mapping is no parameter. -/
theorem Operation.collect_of_none {ctx : Context} {acc : Operation.Placed} {w : Value}
    {rest : List Value} (h : w.members? = none) :
    Operation.collect ctx acc (w :: rest) = Operation.collect ctx acc rest := by
  cases w with
  | map ms => cases h
  | list items => rw [Operation.collect]; simp
  | atom a => rw [Operation.collect]; simp

namespace Revision

/-! ## Types -/

/-- A type is used in the same way: written, imported for and declared for. -/
structure SameUse (r r' : Resolved) : Prop where
  type_eq : r'.type = r.type
  imports_eq : r'.imports = r.imports
  declarations_eq : r'.declarations = r.declarations

namespace SameUse

variable {r r' r'' : Resolved}

theorem refl (r : Resolved) : SameUse r r := ⟨rfl, rfl, rfl⟩

theorem of_sameEnd (h : r.SameEnd r') : SameUse r r' := by
  rcases h with rfl | ⟨-, raw, -, rfl⟩
  · exact .refl _
  · exact ⟨rfl, rfl, rfl⟩

theorem of_sameEnd_alike (h : r.SameEnd r') (h' : r'.Alike r'') : SameUse r r'' := by
  obtain ⟨htype, himports, hdeclarations⟩ := of_sameEnd h
  obtain ⟨raw, -, rfl⟩ := h'
  exact ⟨htype, himports, hdeclarations⟩

variable {rs rs' : List Resolved} (h : List.Forall₂ SameUse rs rs')
include h

theorem importsOf_eq : Resolve.importsOf rs' = Resolve.importsOf rs := by
  unfold Resolve.importsOf
  induction h with
  | nil => rfl
  | cons hr _ ih => rw [List.flatMap_cons, List.flatMap_cons, ih, hr.imports_eq]

theorem declarationsOf_eq : Resolve.declarationsOf rs' = Resolve.declarationsOf rs := by
  unfold Resolve.declarationsOf
  induction h with
  | nil => rfl
  | cons hr _ ih => rw [List.flatMap_cons, List.flatMap_cons, ih, hr.declarations_eq]

end SameUse

section
variable {v : Revision} {ctx ctx' : Context} (hkeeps : v.Keeps) (h : v.Pair ctx ctx') {w : Value}
  (howns : ctx.Owns w.refs) {s' : Schema} (hs : (Schema.ofValue w).Alike s')
include hkeeps h howns hs

/-- A schema of the same shape has the same type after the revision. -/
theorem Pair.value_alike (name : Option String) :
    Timed.Keeps SameUse (Resolve.value ctx (Schema.ofValue w) name)
      (Resolve.value ctx' s' name) :=
  (h.value hkeeps howns name).trans_agree (Resolve.value_agree (fun _ _ => rfl) hs
    (fun t _ => Resolve.referenceAgrees_self ctx' t) name) SameUse.of_sameEnd_alike

theorem Pair.slot_alike (name : Option String) (combined : Bool) :
    Timed.Keeps SameUse (Resolve.slot ctx (Schema.ofValue w) name combined)
      (Resolve.slot ctx' s' name combined) :=
  (h.slot hkeeps howns name combined).trans_agree (Resolve.slot_agree (fun _ _ => rfl) hs
    (fun t _ => Resolve.referenceAgrees_self ctx' t) name combined) SameUse.of_sameEnd_alike

end

/-! ## Parameters -/

/-- What may be a parameter, before and after a revision. Of its members the same is read, each time
in its own context. -/
structure SameMembers (v : Revision) (p p' : Parameter) : Prop where
  members : p.members.ReadSame p'.members
  owner : v.Pair p.owner p'.owner
  owns : p.owner.Owns (Value.map p.members).refs

/-- A parameter before and after a revision. Its name and its place are those of one key. -/
structure SameParameter (v : Revision) (p p' : Parameter) : Prop extends v.SameMembers p p' where
  nameField : p'.members.field? "name" = p.members.field? "name"
  placeField : p'.members.field? "in" = p.members.field? "in"

namespace SameParameter

variable {v : Revision} {p p' : Parameter} (h : v.SameParameter p p')
include h

theorem name_eq : p'.name = p.name := by
  rw [Parameter.name, h.nameField, Parameter.name]

theorem isIn_eq (word : String) : p'.isIn word = p.isIn word := by
  rw [Parameter.isIn, Parameter.place, h.placeField, Parameter.isIn, Parameter.place]

theorem schema_alike : p.schema.Alike p'.schema := by
  have hfield := h.members.field "schema" (by decide)
  unfold Parameter.schema
  generalize p.members.field? "schema" = a, p'.members.field? "schema" = b at hfield ⊢
  cases hfield with
  | same v => exact .refl _
  | mappings _ _ h => exact Schema.alike_of_sameSchema h

theorem comment?_eq : p'.comment? = p.comment? := by
  have hschema := h.schema_alike.raw
  have hgiven : ∀ {a a' b b' : Option Value}, a'.any Value.isTrue = a.any Value.isTrue →
      b'.any Value.isTrue = b.any Value.isTrue →
      (Parameter.firstGiven a' b').any Value.isTrue =
        (Parameter.firstGiven a b).any Value.isTrue := by
    intro a a' b b' ha hb
    unfold Parameter.firstGiven
    rw [ha]
    split_ifs
    · exact ha
    · exact hb
  have hdeprecated := hgiven (h.members.flag_eq (by decide : "deprecated" ∈ _))
    hschema.deprecated.symm
  unfold Parameter.comment?
  dsimp only
  rw [h.members.shown "description" (by decide), ← hschema.description,
    Comment.make?_congr hdeprecated]

end SameParameter

/-- Values of a row of parameters of which both are passed over, or both are the same parameter,
written or referred to. -/
def SameRow (v : Revision) (ctx ctx' : Context) (w w' : Value) : Prop :=
  Option.Rel (fun ms ms' => Except.Keeps v.SameMembers (Operation.deref ctx ms)
    (Operation.deref ctx' ms')) w.members? w'.members?

theorem SameRow.cases {v : Revision} {ctx ctx' : Context} {w w' : Value}
    (h : v.SameRow ctx ctx' w w') : (w.members? = none ∧ w'.members? = none) ∨
      ∃ ms ms', w = .map ms ∧ w' = .map ms' ∧
        Except.Keeps v.SameMembers (Operation.deref ctx ms) (Operation.deref ctx' ms') := by
  have hmap : ∀ {u : Value} {ms : Members}, u.members? = some ms → u = .map ms := by
    intro u ms hms
    cases u <;> cases hms
    rfl
  unfold SameRow at h
  generalize hms : w.members? = a, hms' : w'.members? = b at h
  cases h with
  | none => exact .inl ⟨rfl, rfl⟩
  | some h => exact .inr ⟨_, _, hmap hms, hmap hms', h⟩

/-- Parameters of one name and place. -/
def SamePlaced (v : Revision) (e e' : (Atom × Atom) × Parameter) : Prop :=
  e.1 = e'.1 ∧ v.SameParameter e.2 e'.2

variable {v : Revision} {ctx ctx' : Context}

namespace Pair

section
variable (hkeeps : v.Keeps) (h : v.Pair ctx ctx')
include hkeeps h

theorem deref {ms : Members} (howns : ctx.Owns (Value.map ms).refs) :
    Except.Keeps v.SameMembers (Operation.deref ctx ms) (Operation.deref ctx' ms) := by
  unfold Operation.deref
  cases href : Schema.refOf? ms with
  | none => exact .ok ⟨.refl _, h, howns⟩
  | some ref =>
    have hread := Reference.owning_laws.of_ref howns href
    refine (h.follow hkeeps hread).bind fun e e' he hsame => .ok ⟨hsame.1, hsame.2, ?_⟩
    exact Reference.owning_laws.followFor hread he

/-- A value that is written in both rows. -/
theorem sameRow {w : Value} (howns : ctx.Owns w.refs) : v.SameRow ctx ctx' w w := by
  unfold SameRow
  cases w with
  | map ms => exact .some (h.deref hkeeps howns)
  | list items => exact .none
  | atom a => exact .none

end

theorem collect {rows rows' : List Value} (hrows : List.Forall₂ (v.SameRow ctx ctx') rows rows')
    {acc acc' : Operation.Placed} (hacc : List.Forall₂ v.SamePlaced acc acc') :
    Except.Keeps (List.Forall₂ v.SamePlaced) (Operation.collect ctx acc rows)
      (Operation.collect ctx' acc' rows') := by
  induction hrows generalizing acc acc' with
  | nil => exact .ok hacc
  | @cons w w' rest rest' hw _ ih =>
    rcases hw.cases with ⟨hnone, hnone'⟩ | ⟨ms, ms', rfl, rfl, hderef⟩
    · rw [Operation.collect_of_none hnone, Operation.collect_of_none hnone']
      exact ih hacc
    · rw [Operation.collect, Operation.collect]
      refine hderef.bind fun p p' _ hp => ?_
      have hfield := hp.members.field "name" (by decide)
      generalize hname : p.members.field? "name" = a, hname' : p'.members.field? "name" = b
        at hfield ⊢
      -- a mapping is no key, neither as a name nor as a place
      cases hfield with
      | mappings => exact .error _ _
      | same =>
        cases a with
        | none => exact ih hacc
        | some name =>
          refine .same rfl fun key _ => ?_
          refine ((hp.members.field "in" (by decide)).key_kept (.text "query")).bind
            fun place place' _ hplace => ?_
          obtain ⟨rfl, hplace⟩ := hplace
          exact ih (Keyed.putBy_related hacc _ _ ⟨hp, hname'.trans hname.symm, hplace⟩)

/-- An operation has the same parameters. -/
theorem parameters {pathItem pathItem' operation operation' : Members}
    (hshared : Except.Keeps (List.Forall₂ (v.SameRow ctx ctx'))
      (Form.optionalRow (pathItem.field? "parameters"))
      (Form.optionalRow (pathItem'.field? "parameters")))
    (hown : Except.Keeps (List.Forall₂ (v.SameRow ctx ctx'))
      (Form.optionalRow (operation.field? "parameters"))
      (Form.optionalRow (operation'.field? "parameters"))) :
    Except.Keeps (List.Forall₂ v.SameParameter) (Operation.parameters ctx pathItem operation)
      (Operation.parameters ctx' pathItem' operation') := by
  unfold Operation.parameters
  refine hshared.bind fun shared shared' _ hshared => hown.bind fun own own' _ hown => ?_
  refine (collect (List.rel_append hshared hown) .nil).bind fun acc acc' _ hacc => .ok ?_
  rw [List.forall₂_map_left_iff, List.forall₂_map_right_iff]
  exact hacc.imp fun _ _ he => he.2

/-! ## The types of parameters -/

theorem filter_isIn {ps ps' : List Parameter} (hps : List.Forall₂ v.SameParameter ps ps')
    (word : String) :
    List.Forall₂ v.SameParameter (ps.filter (·.isIn word)) (ps'.filter (·.isIn word)) := by
  refine List.rel_filter (fun p p' hp => ?_) hps
  dsimp only
  rw [hp.isIn_eq]

theorem paramMembers {ps ps' : List Parameter} (hps : List.Forall₂ v.SameParameter ps ps')
    {rs rs' : List Resolved} (hrs : List.Forall₂ SameUse rs rs') :
    Operation.paramMembers ps' rs' = Operation.paramMembers ps rs := by
  induction hps generalizing rs rs' with
  | nil =>
    rw [Operation.paramMembers, Operation.paramMembers]
    · simp
    · simp
  | @cons p p' _ _ hp _ ih =>
    cases hrs with
    | nil =>
      rw [Operation.paramMembers, Operation.paramMembers]
      · simp
      · simp
    | cons hr hrs =>
      rw [Operation.paramMembers, Operation.paramMembers, hp.name_eq, ih hrs, hp.comment?_eq,
        hp.members.flag_eq (by decide), hr.type_eq]

section
variable (hkeeps : v.Keeps)
include hkeeps

theorem pathParameters {ps ps' : List Parameter} (hps : List.Forall₂ v.SameParameter ps ps') :
    Timed.Keeps (List.Forall₂ fun e e' => e'.1 = e.1 ∧ SameUse e.2 e'.2)
      (Operation.pathParameters ps) (Operation.pathParameters ps') := by
  induction hps with
  | nil => exact .pure .nil
  | @cons p p' _ _ hp _ ih =>
    have howns := hp.owns.mono (Value.refs_orEmpty_field? p.members "schema")
    have hschema := (hp.members.field "schema" (by decide)).alike_orEmpty
    rw [Operation.pathParameters, Operation.pathParameters, hp.name_eq]
    exact (hp.owner.value_alike hkeeps howns hschema none).bind fun _ _ _ hr =>
      ih.bind fun _ _ _ hrs => .pure (.cons ⟨rfl, hr⟩ hrs)

variable (h : v.Pair ctx ctx')
include h

theorem paramsInterface {query query' : List Parameter} (name : String)
    (hquery : List.Forall₂ v.SameParameter query query') :
    Timed.Keeps (· = ·) (Operation.paramsInterface ctx name query)
      (Operation.paramsInterface ctx' name query') := by
  have hnames : query'.map (·.name) = query.map (·.name) := by
    induction hquery with
    | nil => rfl
    | cons hp _ ih => rw [List.map_cons, List.map_cons, hp.name_eq, ih]
  unfold Operation.paramsInterface
  rw [hnames, ← h.names_agree hkeeps]
  refine .same rfl fun names hgiven => ?_
  have hnamed : List.Forall₂
      (fun e e' : Parameter × Option String => v.SameParameter e.1 e'.1 ∧ e'.2 = e.2)
      (query.zip names) (query'.zip names) := by
    clear hnames hgiven
    induction hquery generalizing names with
    | nil => exact .nil
    | cons hp _ ih =>
      cases names with
      | nil => exact .nil
      | cons n names => exact .cons ⟨hp, rfl⟩ (ih names)
  refine Timed.Keeps.bind (.all (R := SameUse) ?_) fun types types' _ htypes => ?_
  · rw [List.forall₂_map_left_iff, List.forall₂_map_right_iff]
    refine hnamed.imp fun e e' he => ?_
    obtain ⟨p, n⟩ := e
    obtain ⟨p', _⟩ := e'
    obtain ⟨hp, rfl⟩ := he
    dsimp only at hp ⊢
    obtain ⟨w, hw, hrefs⟩ := Parameter.exists_schema p
    have hschema := hp.schema_alike
    rw [hw] at hschema ⊢
    exact hp.owner.slot_alike hkeeps (hp.owns.mono hrefs) hschema _ false
  · rw [SameUse.importsOf_eq htypes, SameUse.declarationsOf_eq htypes, paramMembers hquery htypes]
    exact .same rfl fun members _ => .pure rfl

theorem paramsOf {query query' : List Parameter} (name : String)
    (hquery : List.Forall₂ v.SameParameter query query') :
    Timed.Keeps (· = ·) (Operation.paramsOf ctx name query)
      (Operation.paramsOf ctx' name query') := by
  unfold Operation.paramsOf
  rw [isEmpty_eq_of_length hquery.length_eq]
  split_ifs
  · exact .pure rfl
  · exact (paramsInterface hkeeps h name hquery).map fun _ _ heq => congrArg some heq

/-! ## Bodies and responses -/

theorem contentOf {component : Option Value}
    (howns : ∀ w, component = some w → ctx.Owns w.refs) (name : String) :
    Timed.Keeps (Option.Rel Resolved.SameEnd) (Operation.contentOf ctx name component)
      (Operation.contentOf ctx' name component) := by
  unfold Operation.contentOf
  split
  · rename_i ms
    have hms := howns _ rfl
    unfold Operation.content
    cases href : Schema.refOf? ms with
    | some ref =>
      refine (Timed.Keeps.ofExcept (h.info hkeeps (Reference.owning_laws.of_ref hms href))).bind
        fun info _ _ heq => ?_
      subst heq
      exact .pure (.some (.refl _))
    | none =>
      refine .same rfl fun schema hschema => ?_
      cases schema with
      | none => exact .pure .none
      | some schema =>
        have hheld := hms.mono (Components.refs_of_jsonSchemaOf hschema)
        exact (h.slot hkeeps hheld _ _).bind fun _ _ _ hr => .pure (.some hr)
  · exact .pure .none

/-! ## Operations -/

/-- An operation has the same types if its parameters and its other members are the same. -/
theorem make (method : String) (path : Atom) {pathItem pathItem' operation operation' : Members}
    (howns : ctx.Owns (Value.map operation).refs)
    (hshared : Except.Keeps (List.Forall₂ (v.SameRow ctx ctx'))
      (Form.optionalRow (pathItem.field? "parameters"))
      (Form.optionalRow (pathItem'.field? "parameters")))
    (hown : Except.Keeps (List.Forall₂ (v.SameRow ctx ctx'))
      (Form.optionalRow (operation.field? "parameters"))
      (Form.optionalRow (operation'.field? "parameters")))
    (hmembers : ∀ word ∈ ["operationId", "requestBody", "responses", "summary"],
      operation'.field? word = operation.field? word) :
    Timed.Keeps (· = ·) (Operation.make ctx method path pathItem (.map operation))
      (Operation.make ctx' method path pathItem' (.map operation')) := by
  unfold Operation.make
  refine Timed.Keeps.bind (.ofExcept (.ok (R := fun a b => a = operation ∧ b = operation')
    ⟨rfl, rfl⟩)) fun own own' _ heq => ?_
  obtain ⟨rfl, rfl⟩ := heq
  rw [hmembers "operationId" (by decide), hmembers "requestBody" (by decide),
    hmembers "responses" (by decide), hmembers "summary" (by decide)]
  refine .same rfl fun name _ => ?_
  refine (Timed.Keeps.ofExcept (parameters hshared hown)).bind fun ps ps' _ hps => ?_
  refine (pathParameters hkeeps (filter_isIn hps "path")).bind fun inPath inPath' _ hinPath => ?_
  refine .same (hkeeps.names _ _ h.before h.after h.target h.target' h.overrides)
    fun claimed _ => ?_
  refine (paramsOf hkeeps h _ (filter_isIn hps "query")).bind fun params _ _ heq => ?_
  subst heq
  refine (h.contentOf hkeeps (fun w hw => howns.mono (Value.refs_field? hw)) _).bind
    fun body body' _ hbody => ?_
  refine .same rfl fun responses hresponses => ?_
  refine (h.contentOf hkeeps (fun w hw => howns.mono (List.Subset.trans
    (Operation.refs_of_successResponse? hw) (Form.refs_of_optionalMapping hresponses))) _).bind
      fun response response' _ hresponse => ?_
  -- what is left is made of the types alone
  have hparams := List.forall₂_same.2 fun r (_ : r ∈ params.toList) => SameUse.refl r
  have htypes : List.Forall₂ SameUse (inPath.map Prod.snd) (inPath'.map Prod.snd) := by
    rw [List.forall₂_map_left_iff, List.forall₂_map_right_iff]
    exact hinPath.imp fun _ _ he => he.2
  have hnamed : inPath.map (fun e => (e.1, e.2.type)) =
      inPath'.map fun e => (e.1, e.2.type) := by
    rw [← List.forall₂_eq_eq_eq, List.forall₂_map_left_iff, List.forall₂_map_right_iff]
    exact hinPath.imp fun _ _ he => Prod.ext he.1.symm he.2.type_eq.symm
  have hcontent : List.Forall₂ SameUse (body.toList ++ response.toList)
      (body'.toList ++ response'.toList) :=
    (List.rel_append (Operation.forall₂_toList hbody) (Operation.forall₂_toList hresponse)).imp
      fun _ _ => .of_sameEnd
  have hall : List.Forall₂ SameUse
      (inPath.map Prod.snd ++ params.toList ++ body.toList ++ response.toList)
      (inPath'.map Prod.snd ++ params.toList ++ body'.toList ++ response'.toList) := by
    rw [List.append_assoc _ body.toList, List.append_assoc _ body'.toList]
    exact List.rel_append (List.rel_append htypes hparams) hcontent
  have hbodyType := Operation.map_related hbody fun _ _ hr => hr.type_eq.symm
  have hresponseType := Operation.map_related hresponse fun _ _ hr => hr.type_eq.symm
  refine .pure ?_
  dsimp only
  rw [SameUse.importsOf_eq hall, SameUse.declarationsOf_eq hall, hnamed, hbodyType, hresponseType]

end
end Pair
end Revision
end ApiTypes

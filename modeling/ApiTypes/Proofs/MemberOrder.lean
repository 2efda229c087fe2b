import ApiTypes.Proofs.ReorderedContent

/-!
# Operations do not depend on the order of members

* `Parameter.Alike` : a parameter read twice, from reordered documents;
* `Operation.parameters_reordered` : an operation has the same parameters;
* `Operation.make_reordered` : so an operation has the same types, or the same failure;
* `Operation.written_reordered` : and the operations stand in the same order;
* `member_order` : so are the operations of reordered documents the same;
* `member_order_shown` : where mappings are shown as text, their order shows.
-/

namespace ApiTypes

/-! ## Parameters -/

/-- Two mappings from reordered documents, each with the context that reads its document. -/
structure Parameter.Related (p p' : Parameter) : Prop where
  members : p.members.Related p'.members
  owner : p.owner.Reordered p'.owner

/-- Parameters of one name. -/
structure Parameter.Alike (p p' : Parameter) : Prop extends p.Related p' where
  name : p.name = p'.name

namespace Parameter

variable {p p' : Parameter}

theorem place_eq {ms ms' : Members} (h : ms.Related ms') :
    Form.key (place ms) = Form.key (place ms') ∧ (place ms).text? = (place ms').text? := by
  obtain ⟨role, h⟩ := h
  have hfield := h.field? "in"
  unfold place
  generalize ms.field? "in" = a, ms'.field? "in" = b at hfield ⊢
  cases hfield with
  | none => exact ⟨rfl, rfl⟩
  | some hvalue => exact ⟨Form.key_reordered hvalue, hvalue.text?_eq⟩

theorem isIn_eq (h : p.Related p') (word : String) : p.isIn word = p'.isIn word := by
  rw [isIn, (place_eq h.members).2, isIn]

theorem schema_alike (h : p.Related p') : p.schema.Alike p'.schema := by
  obtain ⟨role, hms⟩ := h.members
  have hfield := hms.field? "schema"
  unfold schema
  generalize p.members.field? "schema" = a, p'.members.field? "schema" = b at hfield ⊢
  cases hfield with
  | none => exact .bare (.refl [])
  | some hvalue =>
    have halike := Schema.alike_ofValue (Role.under_ne_paths (.inr (by simp))) hvalue
    cases hvalue.sides with
    | atom => exact .bare (.refl [])
    | list => exact .bare (.refl [])
    | map => exact halike

theorem any_firstGiven (a b : Option Value) :
    (firstGiven a b).any Value.isTrue = (a.any Value.isTrue || b.any Value.isTrue) := by
  unfold firstGiven
  split_ifs with h <;> simp [h]

theorem comment?_eq (h : p.Related p') : p.comment? = p'.comment? := by
  have hschema := (schema_alike h).raw
  obtain ⟨role, hms⟩ := h.members
  have hdeprecated : (firstGiven (p.members.field? "deprecated")
        (p.schema.raw.field? "deprecated")).any Value.isTrue =
      (firstGiven (p'.members.field? "deprecated")
        (p'.schema.raw.field? "deprecated")).any Value.isTrue := by
    rw [any_firstGiven, any_firstGiven]
    exact congrArg₂ _ (hms.flag_eq "deprecated") hschema.deprecated
  unfold comment?
  dsimp only
  rw [hms.shown_eq role.under_description, hschema.description, Comment.make?_congr hdeprecated]

end Parameter

namespace Operation

section
variable {ctx ctx' : Context} (h : ctx.Reordered ctx')
include h

theorem deref_reordered {ms ms' : Members} (hms : ms.Related ms') :
    Except.Agree Parameter.Related (deref ctx ms) (deref ctx' ms') := by
  unfold deref
  rw [hms.saySame.ref]
  split
  · exact (h.follow _).bind fun e e' he => .ok ⟨he.1, he.2⟩
  · exact .ok ⟨hms, h⟩

/-- Parameters of one name and place. -/
def SamePlaced (e e' : (Atom × Atom) × Parameter) : Prop := e.1 = e'.1 ∧ e.2.Alike e'.2

theorem collect_reordered {vs ws : List Value} (hvs : List.Forall₂ (Value.Reordered .free) vs ws)
    {acc acc' : Placed} (hacc : List.Forall₂ SamePlaced acc acc') :
    Except.Agree (List.Forall₂ SamePlaced) (collect ctx acc vs) (collect ctx' acc' ws) := by
  induction hvs generalizing acc acc' with
  | nil => exact .ok hacc
  | cons hv _ ih =>
    cases hv.sides with
    | atom => exact ih hacc
    | list => exact ih hacc
    | map hms =>
      refine (deref_reordered h ⟨_, hms⟩).bind fun p p' hp => ?_
      obtain ⟨role, hmembers⟩ := hp.members
      have hfield := hmembers.field? "name"
      have hname : ∀ a, p.members.field? "name" = some (.atom a) →
          p'.members.field? "name" = some (.atom a) → p.name = p'.name := by
        intro a hp hp'
        rw [Parameter.name, hp, Parameter.name, hp']
      generalize p.members.field? "name" = a, p'.members.field? "name" = b at hfield hname ⊢
      cases hfield with
      | none => exact ih hacc
      | some hvalue =>
        cases hvalue.sides with
        | list => exact .error _
        | map => exact .error _
        | atom a =>
          refine .bind_eq rfl fun key => .bind_eq (Parameter.place_eq hp.members).1 fun place => ?_
          exact ih (Keyed.putBy_related hacc _ _ ⟨hp, hname a rfl rfl⟩)

omit h in
/-- Values that are no mappings are passed over. -/
theorem collect_filter (ctx : Context) (acc : Placed) (vs : List Value) :
    collect ctx acc vs = collect ctx acc (vs.filter (·.members?.isSome)) := by
  induction vs generalizing acc with
  | nil => rfl
  | cons v rest ih =>
    cases v with
    | atom a => exact ih acc
    | list items => exact ih acc
    | map ms =>
      change collect ctx acc (.map ms :: rest) = collect ctx acc (.map ms :: _)
      rw [collect, collect]
      simp only [ih]

/-- An operation has the same parameters. -/
theorem parameters_reordered {pathItem pathItem' operation operation' : Members}
    (hpathItem : pathItem.Related pathItem') (hoperation : operation.Related operation') :
    Except.Agree (List.Forall₂ Parameter.Alike) (parameters ctx pathItem operation)
      (parameters ctx' pathItem' operation') := by
  obtain ⟨_, hpathItem⟩ := hpathItem
  obtain ⟨_, hoperation⟩ := hoperation
  refine (Form.optionalRow_reordered (hpathItem.field? "parameters")).bind fun _ _ hshared => ?_
  refine (Form.optionalRow_reordered (hoperation.field? "parameters")).bind fun _ _ hown => ?_
  rw [collect_filter ctx, collect_filter ctx', List.filter_append, List.filter_append]
  have hrows := List.rel_append (Form.filter_reordered hshared) (Form.filter_reordered hown)
  refine (collect_reordered h hrows .nil).bind fun acc acc' hacc => .ok ?_
  rw [List.forall₂_map_left_iff, List.forall₂_map_right_iff]
  exact hacc.imp fun _ _ he => he.2

omit h in
theorem filter_isIn {ps ps' : List Parameter} (hps : List.Forall₂ Parameter.Alike ps ps')
    (word : String) :
    List.Forall₂ Parameter.Alike (ps.filter (·.isIn word)) (ps'.filter (·.isIn word)) := by
  refine List.rel_filter (fun p p' hp => ?_) hps
  dsimp only
  rw [Parameter.isIn_eq hp.toRelated]

/-! ## The params interface -/

omit h in
theorem paramMembers_eq {ps ps' : List Parameter} (hps : List.Forall₂ Parameter.Alike ps ps')
    {rs rs' : List Resolved} (hrs : List.Forall₂ Resolved.Alike rs rs') :
    paramMembers ps rs = paramMembers ps' rs' := by
  induction hps generalizing rs rs' with
  | nil =>
    rw [paramMembers, paramMembers]
    · simp
    · simp
  | @cons p p' _ _ hp _ ih =>
    cases hrs with
    | nil =>
      rw [paramMembers, paramMembers]
      · simp
      · simp
    | cons hr hrs =>
      obtain ⟨_, -, rfl⟩ := hr
      have hrequired : Value.flag p.members "required" = Value.flag p'.members "required" := by
        obtain ⟨role, hms⟩ := hp.members
        exact hms.flag_eq "required"
      rw [paramMembers, paramMembers, hp.name, ih hrs, Parameter.comment?_eq hp.toRelated,
        hrequired]

theorem paramsInterface_reordered {query query' : List Parameter} (name : String)
    (hquery : List.Forall₂ Parameter.Alike query query') :
    Timed.Agree (· = ·) (paramsInterface ctx name query) (paramsInterface ctx' name query') := by
  have hnames : query.map (·.name) = query'.map (·.name) := by
    induction hquery with
    | nil => rfl
    | cons hp _ ih => rw [List.map_cons, List.map_cons, hp.name, ih]
  unfold paramsInterface
  rw [h.names_agree, hnames]
  refine .bind_eq rfl fun names => ?_
  have hnamed : List.Forall₂ (fun e e' : Parameter × Option String => e.1.Alike e'.1 ∧ e.2 = e'.2)
      (query.zip names) (query'.zip names) := by
    clear hnames
    induction hquery generalizing names with
    | nil => exact .nil
    | cons hp _ ih =>
      cases names with
      | nil => exact .nil
      | cons n names => exact .cons ⟨hp, rfl⟩ (ih names)
  refine Timed.Agree.bind (.all ?_)
    fun types types' (htypes : List.Forall₂ Resolved.Alike types types') => ?_
  · rw [List.forall₂_map_left_iff, List.forall₂_map_right_iff]
    refine hnamed.imp fun e e' he => ?_
    obtain ⟨p, n⟩ := e
    obtain ⟨p', _⟩ := e'
    obtain ⟨hp, rfl⟩ := he
    exact hp.owner.slot (Parameter.schema_alike hp.toRelated) n false
  · rw [Resolve.importsOf_alike htypes, Resolve.declarationsOf_alike htypes]
    exact .bind_eq (paramMembers_eq hquery htypes) fun members => .pure rfl

theorem paramsOf_reordered {query query' : List Parameter} (name : String)
    (hquery : List.Forall₂ Parameter.Alike query query') :
    Timed.Agree (· = ·) (paramsOf ctx name query) (paramsOf ctx' name query') := by
  unfold paramsOf
  rw [isEmpty_eq_of_length hquery.length_eq]
  split_ifs
  · exact .pure rfl
  · exact (paramsInterface_reordered h name hquery).map fun _ _ heq => congrArg some heq

end

/-! ## Path parameters -/

/-- The same type under one name. -/
def SameNamed (e e' : Value × Resolved) : Prop := e.1 = e'.1 ∧ e.2.Alike e'.2

theorem pathParameters_reordered {ps ps' : List Parameter}
    (hps : List.Forall₂ Parameter.Alike ps ps') :
    Timed.Agree (List.Forall₂ SameNamed) (pathParameters ps) (pathParameters ps') := by
  induction hps with
  | nil => exact .pure .nil
  | @cons p p' _ _ hp _ ih =>
    have hschema : (Schema.ofValue (Value.orEmpty (p.members.field? "schema"))).Alike
        (Schema.ofValue (Value.orEmpty (p'.members.field? "schema"))) := by
      obtain ⟨role, hms⟩ := hp.members
      exact Schema.alike_ofValue (Role.under_ne_paths (.inr (by simp)))
        (Value.orEmpty_reordered (hms.field? "schema"))
    rw [pathParameters, pathParameters, hp.name]
    exact (hp.owner.value hschema none).bind fun _ _ hr => ih.bind fun _ _ hrs =>
      .pure (.cons ⟨rfl, hr⟩ hrs)

section
variable {es es' : List (Value × Resolved)} (h : List.Forall₂ SameNamed es es')
include h

theorem types_alike : List.Forall₂ Resolved.Alike (es.map Prod.snd) (es'.map Prod.snd) := by
  rw [List.forall₂_map_left_iff, List.forall₂_map_right_iff]
  exact h.imp fun _ _ he => he.2

theorem namedTypes_eq : es.map (fun e => (e.1, e.2.type)) = es'.map fun e => (e.1, e.2.type) := by
  rw [← List.forall₂_eq_eq_eq, List.forall₂_map_left_iff, List.forall₂_map_right_iff]
  exact h.imp fun _ _ he => Prod.ext he.1 he.2.type_eq

end

/-! ## Names -/

theorem freeName_perm {claimed claimed' : List String} (h : claimed.Perm claimed') (name : String) :
    freeName claimed name = freeName claimed' name := by
  have hcontains : claimed.contains name = claimed'.contains name := by
    rw [Bool.eq_iff_iff, List.contains_iff_mem, List.contains_iff_mem, h.mem_iff]
  rw [freeName, hcontains, freeName]

theorem nameOf_reordered {role : Role} {a b : Option Value}
    (h : Option.Rel (Value.Reordered role) a b) (method : String) (path : Atom) :
    nameOf method path a = nameOf method path b := by
  cases h with
  | none => rfl
  | @some v w hvalue =>
    unfold nameOf
    rw [Option.filter_some, Option.filter_some, hvalue.isTrue_eq]
    split_ifs
    · dsimp only
      rw [Form.text_reordered hvalue]
    · rfl

/-! ## One operation -/

section
variable {α β : Type} {R : α → β → Prop} {a : Option α} {b : Option β} (h : Option.Rel R a b)
include h

theorem forall₂_toList : List.Forall₂ R a.toList b.toList := by
  cases h with
  | none => exact .nil
  | some h => exact .cons h .nil

theorem map_related {γ : Type} {f : α → γ} {g : β → γ} (hf : ∀ a b, R a b → f a = g b) :
    a.map f = b.map g := by
  cases h with
  | none => rfl
  | some h => exact congrArg some (hf _ _ h)

end

section
variable {ctx ctx' : Context} (h : ctx.Reordered ctx')
include h

/-- An operation has the same types, or the same failure. -/
theorem make_reordered (method : String) (path : Atom) {pathItem pathItem' : Members}
    (hpathItem : pathItem.Related pathItem') {operation operation' : Value}
    (hoperation : operation.Related operation') :
    Timed.Agree (· = ·) (make ctx method path pathItem operation)
      (make ctx' method path pathItem' operation') := by
  obtain ⟨role, hoperation⟩ := hoperation
  refine Timed.Agree.bind (.ofExcept (Form.mapping_reordered hoperation)) fun own own' hown => ?_
  refine .bind_eq (nameOf_reordered (hown.field? "operationId") method path) fun name => ?_
  refine Timed.Agree.bind (.ofExcept (parameters_reordered h hpathItem ⟨_, hown⟩))
    fun ps ps' hps => ?_
  refine (pathParameters_reordered (filter_isIn hps "path")).bind fun inPath inPath' hinPath => ?_
  refine Timed.Agree.bind (.ofExcept (Components.names_reordered h))
    fun claimed claimed' hnames => ?_
  simp only [freeName_perm hnames]
  refine (paramsOf_reordered h _ (filter_isIn hps "query")).bind fun params params' hparams => ?_
  subst hparams
  have hbodyGiven : Option.Rel Value.RelatedInside (own.field? "requestBody")
      (own'.field? "requestBody") :=
    rel_imp (hown.field? "requestBody") fun _ _ hv => ⟨_, Role.under_ne_paths (.inr (by simp)), hv⟩
  refine (contentOf_reordered h _ hbodyGiven).bind fun body body' hbody => ?_
  refine Timed.Agree.bind (.ofExcept (Form.optionalMapping_reordered (hown.field? "responses")))
    fun responses responses' hresponses => ?_
  have hresponseGiven := successResponse?_reordered hresponses (Role.under_ne_document _ _)
  refine (contentOf_reordered h _ hresponseGiven).bind fun response response' hresponse => ?_
  -- what is left is made of the types alone
  have hparams := List.forall₂_same.2 fun r (_ : r ∈ params.toList) => Resolved.Alike.refl r
  have hall := List.rel_append (List.rel_append (List.rel_append (types_alike hinPath) hparams)
    (forall₂_toList hbody)) (forall₂_toList hresponse)
  have hbodyType := map_related hbody fun _ _ hr => hr.type_eq
  have hresponseType := map_related hresponse fun _ _ hr => hr.type_eq
  rw [Resolve.importsOf_alike hall, Resolve.declarationsOf_alike hall, namedTypes_eq hinPath,
    hown.shown_eq (Role.under_summary _), hbodyType, hresponseType]
  exact .pure rfl

end

/-! ## All operations -/

/-- An operation that is written twice, in reordered documents. -/
structure Written.Alike (w w' : Written) : Prop where
  method : w.method = w'.method
  path : w.path = w'.path
  pathItem : w.pathItem.Related w'.pathItem
  operation : w.operation.Related w'.operation

theorem ofPathItem_reordered (path : Atom) {role : Role} {v w : Value}
    (h : Value.Reordered role v w) :
    List.Forall₂ Written.Alike (ofPathItem path v) (ofPathItem path w) := by
  cases h.sides with
  | atom => exact .nil
  | list => exact .nil
  | @map ms ms' hms =>
    refine List.rel_filterMap (R := (· = ·)) (fun method _ heq => ?_)
      (List.forall₂_same.2 fun _ _ => rfl)
    subst heq
    have hfield := hms.field? method
    generalize Members.field? ms method = a, Members.field? ms' method = b at hfield ⊢
    cases hfield with
    | none => exact .none
    | some hvalue => exact .some ⟨rfl, rfl, ⟨_, hms⟩, ⟨_, hvalue⟩⟩

section
variable {ctx ctx' : Context} (h : ctx.Reordered ctx')
include h

/-- The operations of reordered documents stand in the same order. -/
theorem written_reordered :
    Except.Agree (List.Forall₂ Written.Alike) (written ctx) (written ctx') := by
  have hdocument := Registry.document_reordered h.registry ctx.target
  unfold written
  rw [← h.target]
  have hpaths : Except.Agree (Value.Reordered .paths)
      (pathsOf (ctx.registry.document ctx.target)) (pathsOf (ctx'.registry.document ctx.target)) :=
    (Form.mapping_reordered hdocument).bind fun _ _ hms =>
      .ok (Value.orEmpty_reordered (Role.under_paths ▸ hms.field? "paths"))
  refine hpaths.bind fun v w hv => (Form.mapping_reordered hv).bind fun ms ms' hms => ?_
  refine (Form.sorted_alike hms).bind fun items items' hitems => .ok ?_
  refine List.rel_flatMap hitems fun m m' hm => ?_
  obtain ⟨path, v⟩ := m
  obtain ⟨_, w⟩ := m'
  obtain ⟨rfl, hvalue⟩ := hm
  exact ofPathItem_reordered path hvalue

theorem ofTarget_reordered :
    Timed.Agree (List.Forall₂ (· = ·)) (ofTarget ctx) (ofTarget ctx') := by
  refine Timed.Agree.bind (.ofExcept (written_reordered h)) fun ws ws' hws => .all ?_
  rw [List.forall₂_map_left_iff, List.forall₂_map_right_iff]
  refine hws.imp fun w w' hw => ?_
  rw [ofWritten, hw.method, hw.path, ofWritten]
  exact (make_reordered h _ _ hw.pathItem hw.operation).mapError _

end

end Operation

/-- The operations of reordered documents are the same, or fail in the same way. -/
theorem member_order {ctx ctx' : Context} (h : ctx.Reordered ctx') :
    Operation.ofTarget ctx' = Operation.ofTarget ctx := by
  have hagree := Operation.ofTarget_reordered h
  rw [List.forall₂_eq_eq_eq] at hagree
  exact hagree.eq.symm

/-! ## Documents in two orders -/

/-- Two members in one order or the other. -/
def either (turned : Bool) (m n : Atom × Value) : Members := if turned then [n, m] else [m, n]

section
variable {role : Role} {k l : String} {v v' w w' : Value} (hshown : role ≠ .shown)
  (hv : Value.Reordered (role.under (.text k)) v v')
include hshown hv

theorem single_reordered :
    Value.Reordered role (.map [(.text k, v)]) (.map [(.text k, v')]) :=
  .map hshown (.cons hv (.nil _)) (by simp [Atom.text?]) (by simp) (.refl _) fun _ => rfl

theorem either_reordered (hproperties : role ≠ .properties) (hkeys : k ≠ l)
    (hw : Value.Reordered (role.under (.text l)) w w') :
    Value.Reordered role (.map (either false (.text k, v) (.text l, w)))
      (.map (either true (.text k, v') (.text l, w'))) :=
  .map hshown (.cons hv (.cons hw (.nil _))) (by simp [either, Atom.text?])
    (by simpa [either] using hkeys) (.swap _ _ _) fun h => absurd h hproperties

end

/-- A context that reads a document with some paths. -/
def pathsContext (paths : Members) : Context :=
  .start [("/api.json", .map [(.text "paths", .map paths)])] "/api.json" (.map [])

section
variable {paths : Members}
  (hcomparable : Form.areComparable (paths.map Prod.fst) = true)
  (h : paths.Pairwise fun a b => Form.compareKeys? a.1 b.1 != some .gt)
include hcomparable h

/-- The operations of paths that are in order, as they are written. -/
theorem written_of_pairwise : Operation.written (pathsContext paths) =
    .ok (paths.flatMap fun m => Operation.ofPathItem m.1 m.2) := by
  have hpaths : pathsOf ((pathsContext paths).registry.document (pathsContext paths).target) =
      .ok (.map paths) := congrArg Except.ok (Value.orEmpty_map paths)
  unfold Operation.written
  rw [hpaths]
  change (Form.sorted Prod.fst paths >>= fun ms => _) = _
  rw [Form.sorted_of_pairwise hcomparable h]
  rfl

/-- Their types. -/
theorem ofTarget_of_pairwise :
    (Operation.ofTarget (pathsContext paths)).outcome = (Timed.all ((paths.flatMap fun m =>
      Operation.ofPathItem m.1 m.2).map (Operation.ofWritten (pathsContext paths)))).outcome := by
  rw [Operation.ofTarget, Timed.outcome_bind, Timed.outcome_ofExcept,
    written_of_pairwise hcomparable h]
  rfl

end

/-- A response of which two schemas of JSON content are in one order or the other. -/
def turnedResponse (turned : Bool) : Value :=
  let schema (type : String) : Value := .map [(.text "schema", .map [(.text "type", .text type)])]
  .map [(.text "content", .map (either turned (.text "text/json", schema "string")
    (.text "application/json", schema "number")))]

/-- A path item of which two methods are in one order or the other, and so are two responses of
success. -/
def turnedItem (turned : Bool) : Value :=
  .map (either turned (.text "post", .map [(.text "responses", .map [(.text "204", .map [])])])
    (.text "get", .map [(.text "responses",
      .map (either turned (.text "202", .map []) (.text "201", turnedResponse turned)))]))

/-- Paths that are in one order or the other, and so is what is in them. -/
def turnedPaths (turned : Bool) : Members :=
  either turned (.text "/owners", turnedItem turned) (.text "/pets", turnedItem turned)

theorem turnedItem_reordered : Value.Reordered .free (turnedItem false) (turnedItem true) := by
  have hresponse : Value.Reordered .free (turnedResponse false) (turnedResponse true) :=
    single_reordered (by decide)
      (either_reordered (by decide) (.same _ _) (by decide) (by decide) (.same _ _))
  have hresponses : Value.Reordered .free
      (.map (either false (.text "202", .map []) (.text "201", turnedResponse false)))
      (.map (either true (.text "202", .map []) (.text "201", turnedResponse true))) :=
    either_reordered (by decide) (.same _ _) (by decide) (by decide) hresponse
  exact either_reordered (by decide) (.same _ _) (by decide) (by decide)
    (single_reordered (by decide) hresponses)

theorem member_order_turned :
    (pathsContext (turnedPaths false)).Reordered (pathsContext (turnedPaths true)) ∧
      Operation.ofTarget (pathsContext (turnedPaths true)) =
        Operation.ofTarget (pathsContext (turnedPaths false)) ∧
      ((Operation.ofTarget (pathsContext (turnedPaths false))).outcome.toOption.map fun ops =>
        ops.map fun op => (op.name, op.response.map (·.render))) =
          some [("getOwners", some "number"), ("postOwners", none), ("getPets", some "number"),
            ("postPets", none)] := by
  have hpaths : Value.Reordered .document (.map [(.text "paths", .map (turnedPaths false))])
      (.map [(.text "paths", .map (turnedPaths true))]) :=
    single_reordered (by decide) (either_reordered (by decide) turnedItem_reordered (by decide)
      (by decide) turnedItem_reordered)
  have hctx : (pathsContext (turnedPaths false)).Reordered (pathsContext (turnedPaths true)) :=
    ⟨.cons ⟨rfl, hpaths⟩ .nil, rfl, rfl, rfl, rfl⟩
  refine ⟨hctx, member_order hctx, ?_⟩
  rw [ofTarget_of_pairwise (by decide) (by decide)]
  decide +kernel

/-! ## What is shown as text -/

/-- A pair of members in one order or the other. -/
def turnedPair (turned : Bool) : Members :=
  either turned (.text "b", .atom (.int 1)) (.text "a", .atom (.int 2))

/-- A path item with an operation that has a parameter. -/
def parameterItem (parameter : Members) : Value :=
  .map [(.text "get", .map [(.text "parameters", .list [.map parameter]),
    (.text "responses", .map [(.text "200", .map [])])])]

/-- Paths with a parameter that refers to the paths, so that one of the path items describes it. -/
def describedPaths (turned : Bool) : Members :=
  [(.text "/pets", parameterItem [(.text "$ref", .text "#/paths")]),
    (.text "description", .map (turnedPair turned)), (.text "name", .text "x")]

/-- Paths with a parameter of some schema. -/
def schemaPaths (schema : Value) : Members :=
  [(.text "/pets", parameterItem [(.text "name", .text "x"), (.text "schema", schema)])]

/-- Paths with a content in the summary of a property. -/
def summarizedPaths (turned : Bool) : Members :=
  schemaPaths (.map [(.text "type", .text "object"), (.text "properties", .map [(.text "y",
    .map [(.text "summary", .map [(.text "content", .map (turnedPair turned))])])])])

/-- Paths with a content among the values of an enum. -/
def listedPaths (turned : Bool) : Members :=
  schemaPaths (.map [(.text "enum", .list [.map [(.text "content", .map (turnedPair turned))]])])

/-- The declarations of the operations of some paths, as text. -/
def declaredTexts (paths : Members) : Option (List String) :=
  (Operation.ofTarget (pathsContext paths)).outcome.toOption.map fun ops =>
    ops.flatMap fun op => op.declarations.map (·.model.render)

/-- The order of members shows where a path item describes a parameter, and where a content is part
of a summary or among the values of an enum. -/
theorem member_order_shown : (turnedPair false).Perm (turnedPair true) ∧
    ∀ paths ∈ [describedPaths, summarizedPaths, listedPaths],
      (declaredTexts (paths false)).isSome = true ∧ (declaredTexts (paths true)).isSome = true ∧
        declaredTexts (paths true) ≠ declaredTexts (paths false) ∧
        (Operation.ofTarget (pathsContext (paths true))).outcome ≠
          (Operation.ofTarget (pathsContext (paths false))).outcome := by
  have htexts : ∀ paths ∈ [describedPaths, summarizedPaths, listedPaths],
      (declaredTexts (paths false)).isSome = true ∧ (declaredTexts (paths true)).isSome = true ∧
        declaredTexts (paths true) ≠ declaredTexts (paths false) := by
    unfold declaredTexts
    simp only [List.forall_mem_cons]
    refine ⟨?_, ?_, ?_, by simp⟩
    all_goals
      rw [ofTarget_of_pairwise (by decide) (by decide),
        ofTarget_of_pairwise (by decide) (by decide)]
      decide +kernel
  refine ⟨.swap _ _ _, fun paths hpaths => ?_⟩
  obtain ⟨hfalse, htrue, hne⟩ := htexts paths hpaths
  refine ⟨hfalse, htrue, hne, fun heq => hne ?_⟩
  rw [declaredTexts, declaredTexts, heq]

end ApiTypes

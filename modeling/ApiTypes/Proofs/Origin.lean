import ApiTypes.Proofs.Made
import ApiTypes.Proofs.Names
import ApiTypes.Proofs.Scope

/-!
# Where imports come from

* `Import.Referenced` : an import that some reference stands for, over some documents;
* `Sourced` : imports of which all that name a document are such;
* `Resolve.sourcedLaws` : the imports that a schema's type needs are;
  `Definition.ofDocument_sourced`, `Operation.make_sourced`, `Bundle.make_sourced` : so are those of
  all that a run declares.
-/

namespace ApiTypes

/-- An import that a reference stands for which is read in some of the documents. -/
def Import.Referenced (documents : Registry) (overrides : Value) (i : Import) : Prop :=
  ∃ ctx ref info, ctx.registry = documents ∧ ctx.overrides = overrides ∧
    Reference.info ctx ref = .ok info ∧ i = ⟨info.name, some info.document⟩

/-- Imports of which those from documents are what references stand for. -/
def Sourced (documents : Registry) (overrides : Value) (imports : List Import) : Prop :=
  ∀ i ∈ imports, i.document ≠ none → i.Referenced documents overrides

/-- The imports of a type and of its declarations. -/
def Resolved.allImports (r : Resolved) : List Import :=
  r.imports ++ r.declarations.flatMap (·.imports)

section
variable {documents : Registry} {overrides : Value}

theorem sourced_nil : Sourced documents overrides [] := by
  intro i hi
  cases hi

theorem Sourced.mono {imports more : List Import} (h : Sourced documents overrides more)
    (hsub : imports ⊆ more) : Sourced documents overrides imports :=
  fun i hi => h i (hsub hi)

theorem Sourced.append {imports more : List Import} (h : Sourced documents overrides imports)
    (hmore : Sourced documents overrides more) : Sourced documents overrides (imports ++ more) := by
  intro i hi
  rcases List.mem_append.1 hi with hi | hi
  · exact h i hi
  · exact hmore i hi

/-- What is declared beside names no document. -/
theorem sourced_here (name : String) : Sourced documents overrides [.here name] := by
  intro i hi hdocument
  obtain rfl := List.mem_singleton.1 hi
  exact absurd rfl hdocument

theorem sourced_info {ctx : Context} {ref : String} {info : Reference.Info}
    (h : Reference.info ctx ref = .ok info) :
    Sourced ctx.registry ctx.overrides [⟨info.name, some info.document⟩] := by
  intro i hi _
  exact ⟨ctx, ref, info, rfl, rfl, h, List.mem_singleton.1 hi⟩

end

namespace Resolve

variable {documents : Registry} {overrides : Value}

/-- A type whose imports, and those of its declarations, references stand for. -/
def SourcedType (documents : Registry) (overrides : Value) (r : Resolved) : Prop :=
  Sourced documents overrides r.allImports

theorem SourcedType.finish {r : Resolved} (h : SourcedType documents overrides r) (s : Schema) :
    SourcedType documents overrides (finish s r) := by
  cases s with
  | reference => exact h
  | _ =>
    unfold Resolve.finish Resolved.ofSchema Resolved.withNull
    dsimp only
    split_ifs <;> exact h

theorem sourced_declared {r : Resolved} (h : SourcedType documents overrides r) (name : String)
    (model : Model) (kind : String) (isRef : Bool) :
    SourcedType documents overrides (declared name model kind isRef r) := by
  refine (sourced_here name).append (h.mono ?_)
  intro i hi
  simp only [declared, List.flatMap_append, List.flatMap_singleton] at hi
  exact List.mem_append.2 (List.mem_append.1 hi).symm

theorem SourcedType.hoist {r : Resolved} (h : SourcedType documents overrides r)
    (name : Option String) (combined : Bool) :
    SourcedType documents overrides (hoist name combined r) := by
  unfold Resolve.hoist
  cases name with
  | none => exact h
  | some n =>
    dsimp only
    split
    · exact sourced_declared h _ _ _ _
    · split
      · exact sourced_declared h _ _ _ _
      · exact h

theorem SourcedType.slot (s : Schema) (name : Option String) (combined : Bool) (r : Resolved)
    (h : SourcedType documents overrides r) :
    SourcedType documents overrides (Resolve.hoist name combined (Resolve.finish s r)) :=
  (h.finish s).hoist name combined

/-- The imports of several types and of their declarations. -/
theorem sourced_several {types : List Resolved}
    (h : ∀ r ∈ types, SourcedType documents overrides r) :
    Sourced documents overrides
      (importsOf types ++ (declarationsOf types).flatMap (·.imports)) := by
  intro i hi
  rcases List.mem_append.1 hi with hi | hi
  · obtain ⟨r, hr, hi⟩ := List.mem_flatMap.1 hi
    exact h r hr i (List.mem_append_left _ hi)
  · obtain ⟨d, hd, hi⟩ := List.mem_flatMap.1 hi
    obtain ⟨r, hr, hd⟩ := List.mem_flatMap.1 hd
    exact h r hr i (List.mem_append_right _ (List.mem_flatMap.2 ⟨d, hd, hi⟩))

theorem sourced_plain (type : TypeExpr) (kind : String) :
    SourcedType documents overrides (Resolved.plain type kind) :=
  sourced_nil

theorem sourced_combine {types : List Resolved}
    (h : ∀ r ∈ types, SourcedType documents overrides r) (keyword : Keyword)
    (name : Option String) : SourcedType documents overrides (combine keyword name types) := by
  have hparts := sourced_several h
  unfold combine
  split
  · exact sourced_plain _ _
  · split
    · split
      · refine (sourced_here _).append (hparts.mono ?_)
        intro i hi
        simp only [mergedEnum, List.flatMap_append, List.flatMap_singleton] at hi
        exact List.mem_append.2 (List.mem_append.1 hi).symm
      · exact hparts
    · exact hparts

theorem sourcedLaws (ctx : Context) :
    ShapeLaws ctx fun _ _ r => SourcedType ctx.registry ctx.overrides r where
  reference raw ref name r h := by
    obtain ⟨info, target, deeper, hinfo, -, rfl⟩ := reference_ok h
    exact (sourced_info hinfo).append sourced_nil
  primitive raw name := by
    unfold primitive
    dsimp only
    split_ifs <;> exact sourced_plain _ _
  enum raw values name := sourced_nil
  bare raw name := sourced_nil
  openRecord raw name := sourced_nil
  anyArray raw name := sourced_nil
  array raw items name r h := h.slot items (itemName name) false
  record raw values name r h := h.finish values
  object raw properties name names types r _ htypes h := by
    obtain ⟨members, -, h⟩ := Except.bind_eq_ok.1 h
    obtain rfl := by simpa [pure, Except.pure] using h
    exact sourced_several (htypes.forall_mem SourcedType.slot)
  composition raw keyword schemas name types h :=
    sourced_combine (h.forall_mem SourcedType.slot) keyword name

theorem value_sourced {ctx : Context} {s : Schema} {name : Option String} {r : Resolved}
    (h : (value ctx s name).outcome = .ok r) : SourcedType ctx.registry ctx.overrides r := by
  obtain ⟨q, hq, rfl⟩ := value_ok.1 h
  exact ((sourcedLaws ctx).shape s _ q hq).finish s

theorem slot_sourced {ctx : Context} {s : Schema} {name : Option String} {combined : Bool}
    {r : Resolved} (h : (slot ctx s name combined).outcome = .ok r) :
    SourcedType ctx.registry ctx.overrides r := by
  obtain ⟨q, hq, rfl⟩ := slot_ok.1 h
  exact (value_sourced hq).hoist _ _

end Resolve

/-! ## Contexts over the same documents -/

/-- A context that reads the same documents, with the same suffixes. -/
def Context.Shares (ctx other : Context) : Prop :=
  ctx.registry = other.registry ∧ ctx.overrides = other.overrides

/-- What depends neither on the document that is read nor on what is visited is kept when a
reference is entered. -/
theorem Context.keeps_entering {Q : Context → Prop}
    (hQ : ∀ c current visiting, Q c → Q { c with current, visiting }) {ctx : Context} (hctx : Q ctx)
    (key pointer : String) : Q ((ctx.reading key).entering key pointer) := by
  unfold entering
  split
  · exact hQ ctx key ctx.visiting hctx
  · exact hQ ctx key _ hctx

theorem Reference.followFor_keeps {Q : Context → Prop}
    (hQ : ∀ c current visiting, Q c → Q { c with current, visiting }) {steps : Nat}
    {ctx deeper : Context} {ref : String} {raw : Members} (hctx : Q ctx)
    (h : followFor steps ctx ref = .ok (raw, deeper)) : Q deeper := by
  induction steps generalizing ctx ref with
  | zero =>
    rw [followFor, Except.ok.injEq, Prod.mk.injEq] at h
    exact h.2 ▸ hctx
  | succ steps ih =>
    rw [followFor] at h
    obtain ⟨located, -, h⟩ := Except.bind_eq_ok.1 h
    have hstep := Context.keeps_entering hQ hctx located.document located.pointer
    split at h
    · obtain ⟨-, rfl⟩ : mappingOf ref = raw ∧ ctx = deeper := by
        simpa [pure, Except.pure] using h
      exact hctx
    · dsimp only at h
      split at h
      · split at h
        · exact ih hstep h
        · simp only [pure, Except.pure, Except.ok.injEq, Prod.mk.injEq] at h
          exact h.2 ▸ hstep
      · simp only [pure, Except.pure, Except.ok.injEq, Prod.mk.injEq] at h
        exact h.2 ▸ hstep

theorem Keyed.mem_putBy {κ α : Type} {same : κ → κ → Bool} {m : Keyed κ α} {key : κ} {v : α}
    {e : κ × α} (h : e ∈ putBy same m key v) : e.2 = v ∨ ∃ f ∈ m, f.2 = e.2 := by
  induction m with
  | nil =>
    rw [putBy, List.mem_singleton] at h
    exact .inl (h ▸ rfl)
  | cons first rest ih =>
    obtain ⟨k, w⟩ := first
    rw [putBy] at h
    split at h
    · rcases List.mem_cons.1 h with rfl | h
      · exact .inl rfl
      · exact .inr ⟨e, List.mem_cons_of_mem _ h, rfl⟩
    · rcases List.mem_cons.1 h with rfl | h
      · exact .inr ⟨_, List.mem_cons_self .., rfl⟩
      · rcases ih h with heq | ⟨f, hf, heq⟩
        · exact .inl heq
        · exact .inr ⟨f, List.mem_cons_of_mem _ hf, heq⟩

namespace Operation

variable {ctx : Context}

/-! ## The imports of an operation -/

theorem deref_keeps {Q : Context → Prop}
    (hQ : ∀ c current visiting, Q c → Q { c with current, visiting }) (hctx : Q ctx) {ms : Members}
    {p : Parameter} (h : deref ctx ms = .ok p) : Q p.owner := by
  unfold deref at h
  split at h
  · obtain ⟨⟨members, owner⟩, hfollow, h⟩ := Except.bind_eq_ok.1 h
    obtain rfl : ⟨members, owner⟩ = p := by simpa [pure, Except.pure] using h
    exact Reference.followFor_keeps hQ hctx hfollow
  · obtain rfl : ⟨ms, ctx⟩ = p := by simpa using h
    exact hctx

/-- What holds of every written parameter, or of what its reference leads to, holds of those that
are collected. -/
theorem collect_forall {Q : Parameter → Prop} {acc placed : Placed} {written : List Value}
    (hacc : ∀ e ∈ acc, Q e.2)
    (hderef : ∀ ms, .map ms ∈ written → ∀ p, deref ctx ms = .ok p → Q p)
    (h : collect ctx acc written = .ok placed) : ∀ e ∈ placed, Q e.2 := by
  induction written generalizing acc with
  | nil =>
    obtain rfl : acc = placed := by simpa [collect] using h
    exact hacc
  | cons v rest ih =>
    have hrest : ∀ ms, .map ms ∈ rest → ∀ p, deref ctx ms = .ok p → Q p :=
      fun ms hms => hderef ms (List.mem_cons_of_mem _ hms)
    cases v with
    | map ms =>
      rw [collect] at h
      obtain ⟨p, hp, h⟩ := Except.bind_eq_ok.1 h
      split at h
      · exact ih hacc hrest h
      · obtain ⟨name, -, h⟩ := Except.bind_eq_ok.1 h
        obtain ⟨place, -, h⟩ := Except.bind_eq_ok.1 h
        refine ih (fun e he => ?_) hrest h
        rcases Keyed.mem_putBy he with heq | ⟨f, hf, heq⟩
        · rw [heq]
          exact hderef ms (List.mem_cons_self ..) p hp
        · rw [← heq]
          exact hacc f hf
    | list items =>
      rw [collect] at h
      · exact ih hacc hrest h
      · simp
    | atom a =>
      rw [collect] at h
      · exact ih hacc hrest h
      · simp

/-- The parameters of an operation are those that are collected from two rows. -/
theorem parameters_ok {pathItem operation : Members} {params : List Parameter}
    (h : parameters ctx pathItem operation = .ok params) :
    ∃ shared own placed, Form.optionalRow (pathItem.field? "parameters") = .ok shared ∧
      Form.optionalRow (operation.field? "parameters") = .ok own ∧
      collect ctx [] (shared ++ own) = .ok placed ∧ params = placed.map Prod.snd := by
  unfold parameters at h
  obtain ⟨shared, hshared, h⟩ := Except.bind_eq_ok.1 h
  obtain ⟨own, hown, h⟩ := Except.bind_eq_ok.1 h
  obtain ⟨placed, hplaced, h⟩ := Except.bind_eq_ok.1 h
  exact ⟨shared, own, placed, hshared, hown, hplaced, by simpa [pure, Except.pure] using h.symm⟩

/-- A parameter is read where the operation is, but for the document and what is visited. -/
theorem parameters_keeps {Q : Context → Prop}
    (hQ : ∀ c current visiting, Q c → Q { c with current, visiting }) (hctx : Q ctx)
    {pathItem operation : Members} {params : List Parameter}
    (h : parameters ctx pathItem operation = .ok params) : ∀ p ∈ params, Q p.owner := by
  obtain ⟨shared, own, placed, -, -, hplaced, rfl⟩ := parameters_ok h
  intro p hp
  obtain ⟨e, he, rfl⟩ := List.mem_map.1 hp
  exact collect_forall (Q := fun p => Q p.owner) (by simp)
    (fun _ _ _ => deref_keeps hQ hctx) hplaced e he

theorem parameters_shares {pathItem operation : Members} {params : List Parameter}
    (h : parameters ctx pathItem operation = .ok params) : ∀ p ∈ params, p.owner.Shares ctx :=
  parameters_keeps (Q := (Context.Shares · ctx)) (fun _ _ _ h => h) ⟨rfl, rfl⟩ h

theorem paramsInterface_sourced {name : String} {query : List Parameter} {r : Resolved}
    (hquery : ∀ p ∈ query, p.owner.Shares ctx)
    (h : (paramsInterface ctx name query).outcome = .ok r) :
    Resolve.SourcedType ctx.registry ctx.overrides r := by
  obtain ⟨names, types, members, -, htypes, -, rfl⟩ := paramsInterface_ok h
  have hall : ∀ t ∈ types, Resolve.SourcedType ctx.registry ctx.overrides t := by
    intro t ht
    obtain ⟨x, hx, hslot⟩ := exists_left_of_forall₂ htypes ht
    obtain ⟨hregistry, hoverrides⟩ := hquery x.1 (List.of_mem_zip hx).1
    rw [← hregistry, ← hoverrides]
    exact Resolve.slot_sourced hslot
  refine (sourced_here name).append ((Resolve.sourced_several hall).mono ?_)
  intro i hi
  simp only [List.flatMap_append, List.flatMap_singleton] at hi
  exact List.mem_append.2 (List.mem_append.1 hi).symm

theorem contentOf_sourced {name : String} {component : Option Value} {r : Resolved}
    (h : (contentOf ctx name component).outcome = .ok (some r)) :
    Resolve.SourcedType ctx.registry ctx.overrides r := by
  obtain ⟨ms, -, ⟨ref, info, -, hinfo, rfl⟩ | ⟨schema, -, -, hslot⟩⟩ := contentOf_ok h
  · exact (sourced_info hinfo).append sourced_nil
  · exact Resolve.slot_sourced hslot

theorem Steps.all_sourced {method : String} {path : Atom} {pathItem operation : Members}
    {op : Operation} (s : Steps ctx method path pathItem operation op) :
    ∀ r ∈ s.all, Resolve.SourcedType ctx.registry ctx.overrides r := by
  have hshares := parameters_shares s.parameters_ok
  refine s.forall_all (fun p hp r hvalue => ?_) (fun name _ r hr => ?_)
    fun _ _ _ _ => contentOf_sourced
  · obtain ⟨hregistry, hoverrides⟩ := hshares p hp
    rw [← hregistry, ← hoverrides]
    exact Resolve.value_sourced hvalue
  · exact paramsInterface_sourced (fun p hp => hshares p (List.mem_filter.1 hp).1) hr

theorem make_sourced {method : String} {path : Atom} {pathItem : Members} {operation : Value}
    {op : Operation} (h : (make ctx method path pathItem operation).outcome = .ok op) :
    Sourced ctx.registry ctx.overrides (op.imports ++ op.declarations.flatMap (·.imports)) := by
  obtain ⟨ms, -, s, himports, hdeclarations⟩ := make_ok h
  rw [himports, hdeclarations]
  exact Resolve.sourced_several s.all_sourced

theorem ofTarget_sourced {ops : List Operation} (h : (ofTarget ctx).outcome = .ok ops) :
    ∀ op ∈ ops,
      Sourced ctx.registry ctx.overrides (op.imports ++ op.declarations.flatMap (·.imports)) := by
  obtain ⟨ws, -, hops⟩ := ofTarget_ok.1 h
  intro op hop
  obtain ⟨w, -, hw⟩ := exists_left_of_forall₂ hops hop
  exact make_sourced hw

end Operation

/-! ## The imports of all that a run declares -/

theorem Definition.ofDocument_sourced {ctx : Context} {ds : List Declaration}
    (h : (ofDocument ctx).outcome = .ok ds) :
    ∀ d ∈ ds, Sourced ctx.registry ctx.overrides d.imports := by
  obtain ⟨entries, results, -, hresults, rfl⟩ := ofDocument_ok.1 h
  intro d hd i hi
  obtain ⟨es, hes, hd⟩ := List.mem_flatten.1 hd
  obtain ⟨e, -, hentry⟩ := exists_left_of_forall₂ hresults hes
  obtain ⟨base, name, -, -, hschema⟩ := ofEntry_ok.1 hentry
  obtain ⟨r, hr, rfl⟩ := ofSchema_ok.1 hschema
  obtain ⟨c, hc, hic⟩ := (Declaration.gathers_merge _).imports d hd i hi
  refine Resolve.value_sourced hr i ?_
  rcases List.mem_append.1 hc with hc | hc
  · exact List.mem_append_right _ (List.mem_flatMap.2 ⟨c, hc, hic⟩)
  · obtain rfl := List.mem_singleton.1 hc
    exact List.mem_append_left _ hic

/-- The imports of all declarations and operations. -/
def Bundle.imports (b : Bundle) : List Import :=
  (b.volumes.flatMap (·.declarations)).flatMap (·.imports) ++ b.operations.flatMap (·.imports)

theorem Bundle.mem_imports {b : Bundle} {v : Volume} (hv : v ∈ b.volumes) {d : Declaration}
    (hd : d ∈ v.declarations) {i : Import} (hi : i ∈ d.imports) : i ∈ b.imports :=
  List.mem_append_left _ (List.mem_flatMap.2 ⟨d, List.mem_flatMap.2 ⟨v, hv, hd⟩, hi⟩)

theorem Bundle.make_sourced {config : Config} {target : String} {documents : Registry} {b : Bundle}
    (h : make config target documents = .ok b) :
    Sourced documents config.overrides b.imports := by
  obtain ⟨-, -, -, -, hops, -⟩ := make_ok h
  have hoperations := Operation.ofTarget_sourced hops
  have hdeclarations : ∀ v ∈ b.volumes, ∀ d ∈ v.declarations,
      Sourced documents config.overrides d.imports := by
    intro v hv d hd
    obtain ⟨ds, hds, hfirst⟩ := volume_ok h hv
    rw [hfirst] at hd
    rcases List.mem_append.1 (firstOfName_subset _ _ hd) with hd | hd
    · exact Definition.ofDocument_sourced hds d hd
    · split at hd
      · obtain ⟨op, hop, hd⟩ := List.mem_flatMap.1 hd
        exact (hoperations op hop).mono
          fun i hi => List.mem_append_right _ (List.mem_flatMap.2 ⟨d, hd, hi⟩)
      · cases hd
  intro i hi
  rcases List.mem_append.1 hi with hi | hi
  · obtain ⟨d, hd, hi⟩ := List.mem_flatMap.1 hi
    obtain ⟨v, hv, hd⟩ := List.mem_flatMap.1 hd
    exact hdeclarations v hv d hd i hi
  · obtain ⟨op, hop, hi⟩ := List.mem_flatMap.1 hi
    exact hoperations op hop i (List.mem_append_left _ hi)

end ApiTypes

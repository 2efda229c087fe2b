import ApiTypes.Proofs.Chains
import ApiTypes.Proofs.Moved
import ApiTypes.Proofs.Ownership
import ApiTypes.Proofs.ReferenceNames
import ApiTypes.Proofs.ReorderedReferences

/-!
# Documents under other keys

* `Registry.Mirrors` : documents of one registry, and another that has them under other keys;
* `Context.moved` : a context that reads the other registry;
* `Context.Within` : a context stays among the documents that both have;
* `Context.Within.locate_moved`, `Context.Within.follow_moved` : there references lead to the same
  place of the same document;
* `Context.Within.value_moved` : so what a document says of a schema has the same type;
* `Definition.ofDocument_moved` : and the document has the same declarations.
-/

namespace ApiTypes

/-- Some documents of one registry, those in `scope`, which the other has under other keys, and that
refer to no loaded documents but such. -/
structure Registry.Mirrors (move : String → String) (scope : String → Prop) (r r' : Registry) :
    Prop where
  injective : ∀ key key', scope key → scope key' → move key = move key' → key = key'
  document : ∀ key, scope key → r'.document? (move key) = r.document? key
  reached : ∀ key document, scope key → (key, document) ∈ r → ∀ ref ∈ document.refs,
    ∀ ctx ctx' : Context, ctx.current = key → ctx'.current = move key → ∀ found,
      Reference.documentKey ctx (Pointer.split ref).1 = .ok found → r.document? found ≠ none →
        scope found ∧ Reference.documentKey ctx' (Pointer.split ref).1 = .ok (move found)

/-- A context where the documents have other keys. -/
def Context.moved (move : String → String) (registry : Registry) (ctx : Context) : Context :=
  { ctx with
    registry
    target := move ctx.target
    current := move ctx.current
    visiting := ctx.visiting.map (Prod.map move id) }

def Reference.Located.moved (move : String → String) (l : Located) : Located :=
  { l with document := move l.document }

def Reference.Info.moved (move : String → String) (i : Info) : Info :=
  { i with document := move i.document }

/-- A context that stays among some documents, and reads some references in one of them. -/
structure Context.Within (scope : String → Prop) (r : Registry) (ctx : Context)
    (refs : List String) : Prop where
  registry : ctx.registry = r
  target : scope ctx.target
  current : scope ctx.current
  visiting : ∀ v ∈ ctx.visiting, scope v.1
  owns : ctx.Owns refs

variable {move : String → String} {scope : String → Prop} {r r' : Registry}

namespace Context.Within

variable {ctx : Context} {refs more : List String}

theorem mono (h : ctx.Within scope r more) (hsub : refs ⊆ more) : ctx.Within scope r refs :=
  ⟨h.registry, h.target, h.current, h.visiting, h.owns.mono hsub⟩

/-- A reference that is found there leads to another of the documents. -/
theorem scope_of_locate (hmirrors : r.Mirrors move scope r') {ref : String}
    {located : Reference.Located} (h : ctx.Within scope r [ref])
    (hlocated : Reference.locate ctx ref = .ok located) : scope located.document ∧
      ∀ ctx' : Context, ctx'.current = move ctx.current →
        Reference.documentKey ctx' (Pointer.split ref).1 = .ok (move located.document) := by
  obtain ⟨document, hdocument, href⟩ := h.owns
  obtain ⟨found, hfound, -⟩ := Reference.locate_ok hlocated
  rw [h.registry] at hdocument hfound
  have hreached := fun ctx' hctx' => hmirrors.reached _ document h.current hdocument ref
    (href (List.mem_singleton_self _)) ctx ctx' rfl hctx' _ (Reference.locate_parts hlocated).1
    (by simp [hfound])
  exact ⟨(hreached (ctx.moved move r') rfl).1, fun ctx' hctx' => (hreached ctx' hctx').2⟩

/-- The documents that are read stay among these. -/
theorem laws (hmirrors : r.Mirrors move scope r') :
    Reference.Laws (fun _ => True) (Context.Within scope r) where
  defect _ := trivial
  mono _ _ _ h hsub := h.mono hsub
  fails _ _ _ _ _ := trivial
  found ctx ref located h hlocated := by
    obtain ⟨hscope, -⟩ := h.scope_of_locate hmirrors hlocated
    have howns := Reference.locate_owns hlocated
    constructor
    case registry => exact keeps_entering (Q := (·.registry = r)) (fun _ _ _ h => h) h.registry _ _
    case target => exact keeps_entering (Q := (scope ·.target)) (fun _ _ _ h => h) h.target _ _
    case current =>
      unfold entering
      split_ifs
      · exact hscope
      · exact hscope
    case visiting =>
      unfold entering
      split_ifs
      · exact h.visiting
      · exact List.forall_mem_append.2 ⟨h.visiting, List.forall_mem_singleton.2 hscope⟩
    case owns => exact howns.entering _ _

end Context.Within

/-! ## References -/

section
variable (hmirrors : r.Mirrors move scope r') {ctx : Context}
include hmirrors

namespace Context.Within

/-- What is being followed is the same. -/
theorem isVisiting_moved {refs : List String} (h : ctx.Within scope r refs) {key : String}
    (hkey : scope key) (pointer : String) :
    (ctx.moved move r').isVisiting (move key) pointer = ctx.isVisiting key pointer := by
  refine @contains_map (String × String) _ _ (Prod.map move id) ctx.visiting (key, pointer) ?_
  rintro ⟨other, p⟩ hother heq
  obtain ⟨hmove, hsame⟩ := Prod.mk.inj heq
  exact Prod.ext (hmirrors.injective _ _ (h.visiting _ hother) hkey hmove) hsame

theorem entering_moved {refs : List String} (h : ctx.Within scope r refs) {key : String}
    (hkey : scope key) (pointer : String) :
    ((ctx.moved move r').reading (move key)).entering (move key) pointer =
      ((ctx.reading key).entering key pointer).moved move r' := by
  have hvisiting : ((ctx.moved move r').reading (move key)).isVisiting (move key) pointer =
      (ctx.reading key).isVisiting key pointer := h.isVisiting_moved hmirrors hkey pointer
  unfold entering
  rw [hvisiting]
  split_ifs
  · rfl
  · simp only [Context.moved, reading, List.map_append, List.map_cons, List.map_nil]
    rfl

variable {ref : String} (h : ctx.Within scope r [ref])
include h

/-- A reference leads to the same place of the same document. -/
theorem locate_moved : Except.Carries (·.moved move) (Reference.locate ctx ref)
    (Reference.locate (ctx.moved move r') ref) := by
  intro located hlocated
  obtain ⟨hscope, hkey⟩ := h.scope_of_locate hmirrors hlocated
  obtain ⟨document, hdocument, hwalk⟩ := Reference.locate_ok hlocated
  have hpointer := (Reference.locate_parts hlocated).2
  rw [h.registry] at hdocument
  refine Reference.locate_of_walk (Prod.mk.eta.symm.trans (congrArg _ hpointer.symm))
    (hkey (ctx.moved move r') rfl) ?_ hwalk
  exact (hmirrors.document _ hscope).trans hdocument

theorem info_moved : Except.Carries (·.moved move) (Reference.info ctx ref)
    (Reference.info (ctx.moved move r') ref) :=
  (h.locate_moved hmirrors).bind fun _ _ => .same fun _ _ => .same fun _ _ => .same fun _ _ => .ok _

/-- A chain of so many steps ends at the same mapping. -/
theorem followFor_moved (steps : Nat) :
    Except.Carries (Prod.map id (·.moved move r')) (Reference.followFor steps ctx ref)
      (Reference.followFor steps (ctx.moved move r') ref) := by
  induction steps generalizing ctx ref with
  | zero => exact .ok (Reference.mappingOf ref, ctx)
  | succ steps ih =>
    rw [Reference.followFor, Reference.followFor]
    refine (h.locate_moved hmirrors).bind fun located hlocated => ?_
    obtain ⟨hscope, -⟩ := h.scope_of_locate hmirrors hlocated
    simp only [Reference.Located.moved, h.isVisiting_moved hmirrors hscope,
      h.entering_moved hmirrors hscope]
    split_ifs
    · exact .ok (Reference.mappingOf ref, ctx)
    · split
      · rename_i ms hnode
        split
        · rename_i next hnext
          exact ih ((laws hmirrors).next h hlocated hnode hnext)
        · exact .ok (ms, _)
      · exact .ok ([], _)

/-- The steps of a chain are enough in both registries, so it ends at the same mapping. -/
theorem follow_moved : Except.Carries (Prod.map id (·.moved move r')) (Reference.follow ctx ref)
    (Reference.follow (ctx.moved move r') ref) := by
  have hsteps := le_max_left (Reference.stepBound ctx.registry) (Reference.stepBound r')
  have hsteps' := le_max_right (Reference.stepBound ctx.registry) (Reference.stepBound r')
  rw [← Reference.follow_eq hsteps, ← @Reference.follow_eq (ctx.moved move r') ref _ hsteps']
  exact h.followFor_moved hmirrors _

theorem reference_moved : Except.Carries (·.moved move) (Resolve.reference ctx ref)
    (Resolve.reference (ctx.moved move r') ref) := by
  rw [Resolve.reference_eq, Resolve.reference_eq]
  refine (h.info_moved hmirrors).bind fun info _ => (h.follow_moved hmirrors).bind fun e _ => ?_
  obtain ⟨raw, deeper⟩ := e
  dsimp only [Prod.map, id]
  split_ifs
  · exact .error _ _
  · exact .ok _

end Context.Within

/-! ## Types and declarations -/

theorem Registry.Mirrors.document_eq {key : String} (hkey : scope key) :
    r'.document (move key) = r.document key := by
  rw [Registry.document, Registry.document, hmirrors.document key hkey]

namespace Context.Within

section
variable {refs : List String} (h : ctx.Within scope r refs)
include h

theorem targetDocument_moved : (ctx.moved move r').registry.document (ctx.moved move r').target =
    ctx.registry.document ctx.target := by
  rw [h.registry]
  exact hmirrors.document_eq h.target

theorem document_moved : (ctx.moved move r').document = ctx.document := by
  rw [Context.document, Context.document, h.registry]
  exact hmirrors.document_eq h.current

theorem names_agree : Resolve.NamesAgree ctx (ctx.moved move r') := by
  refine Resolve.namesAgree_of_isDeclared fun name => ?_
  unfold isDeclared targetSchemas
  rw [h.targetDocument_moved hmirrors]

end

section
variable {v : Value} (h : ctx.Within scope r v.refs)
include h

theorem movesAlone : ∀ t ∈ (Schema.ofValue v).inside,
    Resolve.MovesAlone move ctx (ctx.moved move r') t :=
  Resolve.movesAlone_of_refs fun _ href =>
    ((laws hmirrors).of_mem h (Schema.refs_ofValue v href)).reference_moved hmirrors

theorem value_moved (name : Option String) :
    Timed.Carries (·.moved move) (Resolve.value ctx (Schema.ofValue v) name)
      (Resolve.value (ctx.moved move r') (Schema.ofValue v) name) :=
  Resolve.value_moved (h.names_agree hmirrors) (h.movesAlone hmirrors) name

theorem slot_moved (name : Option String) (combined : Bool) :
    Timed.Carries (·.moved move) (Resolve.slot ctx (Schema.ofValue v) name combined)
      (Resolve.slot (ctx.moved move r') (Schema.ofValue v) name combined) :=
  Resolve.slot_moved (h.names_agree hmirrors) (h.movesAlone hmirrors) name combined

end
end Context.Within

/-! ## Documents -/

namespace Definition

omit hmirrors in
theorem declarations_moved (name : String) (comment : Option Comment) (r : Resolved) :
    declarations name comment (r.moved move) =
      (declarations name comment r).map (·.moved move) := by
  rw [declarations, declarations, ← Declaration.merge_moved, List.map_append]
  rfl

theorem ofEntry_moved {e : Components.Entry} (h : ctx.Within scope r e.schema.refs) :
    Timed.Carries (List.map (·.moved move)) (ofEntry ctx e) (ofEntry (ctx.moved move r') e) := by
  refine .same fun base _ => .same fun name _ => ?_
  refine ((h.value_moved hmirrors (some name)).mapError _ _).bind fun r _ => ?_
  rw [declarations_moved]
  exact .pure _

/-- A document is the same under another key, and is named after its file the same way. -/
theorem entries_moved (h : ctx.Within scope r ctx.document.refs)
    (hnamed : Reference.documentName (Pointer.split (move ctx.current)).1 =
      Reference.documentName (Pointer.split ctx.current).1) :
    Components.entries (ctx.moved move r') = Components.entries ctx := by
  have htypes : ∀ components types, Components.entriesOfTypes (ctx.moved move r') components types =
      Components.entriesOfTypes ctx components types := by
    intro components types
    induction types with
    | nil => rfl
    | cons componentType rest ih =>
      rw [Components.entriesOfTypes, Components.entriesOfTypes, ih]
      rfl
  unfold Components.entries
  simp only [h.document_moved hmirrors, htypes]
  simp only [Context.moved, hnamed]

/-- A document has the same declarations. -/
theorem ofDocument_moved (h : ctx.Within scope r ctx.document.refs)
    (hnamed : Reference.documentName (Pointer.split (move ctx.current)).1 =
      Reference.documentName (Pointer.split ctx.current).1) :
    Timed.Carries (List.map (·.moved move)) (ofDocument ctx)
      (ofDocument (ctx.moved move r')) := by
  unfold ofDocument
  rw [entries_moved hmirrors h hnamed]
  refine .same fun es hes => ?_
  refine (Timed.Carries.all (f := List.map (·.moved move)) ?_).bind fun results _ => ?_
  · rw [List.forall₂_map_left_iff, List.forall₂_map_right_iff, List.forall₂_same]
    exact fun e he => ofEntry_moved hmirrors (h.mono (Components.refs_of_entries hes e he))
  · rw [← List.map_flatten]
    exact .pure _

end Definition
end
end ApiTypes

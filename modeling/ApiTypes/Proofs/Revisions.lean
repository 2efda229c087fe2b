import ApiTypes.Proofs.ChainEnds
import ApiTypes.Proofs.Ownership
import ApiTypes.Proofs.ReadSame
import ApiTypes.Proofs.ReferenceNames
import ApiTypes.Proofs.ReorderedReferences
import ApiTypes.Proofs.SameEnds

/-!
# Revised documents

* `Revision`, `Revision.Keeps` : some documents before and after they are revised, where a reference
  that has led somewhere still leads there, to a value of which the same is read;
* `Revision.Pair` : two contexts that read the same document, before and after;
* `Revision.Pair.follow`, `Revision.Pair.info` : so chains end where they have ended and references
  stand for the same names;
* `Revision.Pair.value`, `Revision.Pair.slot` : and schemas have the same types.
-/

namespace ApiTypes

/-! ## Revisions -/

/-- Some documents before and after they are revised. -/
structure Revision where
  before : Registry
  after : Registry
  /-- The document whose declarations are made. -/
  target : String
  /-- The document and the pointer of what is new in it. -/
  fresh : String × String

namespace Revision

/-- A value as a mapping. What is none has no members. -/
def membersOf (v : Value) : Members := v.members?.getD []

/-- A reference that has led somewhere still leads there, to a value of which the same is read, and
the components of the target have the same names. -/
structure Keeps (v : Revision) : Prop where
  leads : ∀ (ctx ctx' : Context) (ref : String) (located : Reference.Located),
    ctx.registry = v.before → ctx'.registry = v.after → ctx'.current = ctx.current →
    ctx.Owns [ref] → Reference.locate ctx ref = .ok located → located.place ≠ v.fresh ∧
      ∃ node, Reference.locate ctx' ref = .ok { located with node } ∧
        (membersOf located.node).ReadSame (membersOf node)
  schemas : schemasOf (v.after.document v.target) = schemasOf (v.before.document v.target)
  names : ∀ ctx ctx' : Context, ctx.registry = v.before → ctx'.registry = v.after →
    ctx.target = v.target → ctx'.target = v.target → ctx'.overrides = ctx.overrides →
    Components.names ctx' = Components.names ctx

/-- Two contexts that read the same document, before and after the revision. What is new may be one
more place that is being followed. -/
structure Pair (v : Revision) (ctx ctx' : Context) : Prop where
  before : ctx.registry = v.before
  after : ctx'.registry = v.after
  target : ctx.target = v.target
  target' : ctx'.target = v.target
  current : ctx'.current = ctx.current
  overrides : ctx'.overrides = ctx.overrides
  visiting : ∀ place, place ≠ v.fresh → (place ∈ ctx'.visiting ↔ place ∈ ctx.visiting)

/-- Mappings of which the same is read, each with the context that reads its document. -/
def SameEnd (v : Revision) (e e' : Members × Context) : Prop :=
  e.1.ReadSame e'.1 ∧ v.Pair e.2 e'.2

theorem refOfValue?_eq (w : Value) :
    Reference.refOfValue? w = Schema.refOf? (membersOf w) := by
  cases w <;> rfl

variable {v : Revision} {ctx ctx' : Context}

namespace Pair

theorem along (h : v.Pair ctx ctx') (document : String) (places : List (String × String)) :
    v.Pair (ctx.along document places) (ctx'.along document places) where
  before := h.before
  after := h.after
  target := h.target
  target' := h.target'
  current := rfl
  overrides := h.overrides
  visiting place hplace := by
    have hvisiting := h.visiting place hplace
    simp only [Context.along, List.mem_append, hvisiting]

/-! ## References -/

section
variable (hkeeps : v.Keeps) (h : v.Pair ctx ctx')
include hkeeps h

/-- What a chain comes to after it has entered some places is read in the same way. -/
theorem followFor (steps : Nat) {document later : String} {places : List (String × String)}
    (howns : (ctx.reading document).Owns [later]) :
    Except.Keeps v.SameEnd (Reference.followFor steps (ctx.along document places) later)
      (Reference.followFor steps (ctx'.along document places) later) := by
  induction steps generalizing document places later with
  | zero => exact .ok ⟨.refl _, h.along document places⟩
  | succ steps ih =>
    rw [Reference.followFor_along, Reference.followFor_along]
    cases hlocated : Reference.locate (ctx.reading document) later with
    | error f => exact .error _ _
    | ok located =>
      obtain ⟨hfresh, node, hlocated', hsame⟩ := hkeeps.leads (ctx.reading document)
        (ctx'.reading document) later located h.before h.after rfl howns hlocated
      have hvisiting : located.place ∈ ctx'.visiting ++ places ↔
          located.place ∈ ctx.visiting ++ places := by
        rw [List.mem_append, List.mem_append, h.visiting _ hfresh]
      have hplace : Reference.Located.place { located with node } = located.place := rfl
      rw [hlocated']
      dsimp only
      rw [hplace, refOfValue?_eq, refOfValue?_eq, hsame.ref]
      by_cases hagain : located.place ∈ ctx.visiting ++ places
      · rw [if_pos hagain, if_pos (hvisiting.2 hagain)]
        exact .ok ⟨.refl _, h.along _ _⟩
      · rw [if_neg hagain, if_neg (mt hvisiting.1 hagain)]
        cases hnext : Schema.refOf? (membersOf located.node) with
        | none => exact .ok ⟨hsame, h.along _ _⟩
        | some next =>
          refine ih ?_
          rw [← refOfValue?_eq] at hnext
          obtain ⟨ms, hms, hnext⟩ := Reference.exists_of_refOfValue hnext
          refine (Reference.locate_owns hlocated).mono (List.cons_subset.2 ⟨?_, List.nil_subset _⟩)
          exact hms ▸ Value.ref_mem hnext

variable {ref : String} (howns : ctx.Owns [ref])
include howns

/-- A chain ends where it has ended. The steps that it is given are enough before and after. -/
theorem follow : Except.Keeps v.SameEnd (Reference.follow ctx ref)
    (Reference.follow ctx' ref) := by
  let steps := max (Reference.stepBound ctx.registry) (Reference.stepBound ctx'.registry)
  rw [← Reference.follow_eq (le_max_left _ _ : Reference.stepBound ctx.registry ≤ steps),
    ← Reference.follow_eq (le_max_right _ _ : Reference.stepBound ctx'.registry ≤ steps)]
  have hfollow : Except.Keeps v.SameEnd (Reference.followFor steps (ctx.along ctx.current []) ref)
      (Reference.followFor steps (ctx'.along ctx.current []) ref) :=
    followFor hkeeps h steps howns
  rwa [Reference.along_nil, ← h.current, Reference.along_nil] at hfollow

/-- A reference stands for the same name. -/
theorem info : Except.Keeps (· = ·) (Reference.info ctx ref) (Reference.info ctx' ref) := by
  have hsuffix : ∀ tokens, Reference.suffixOf ctx' tokens = Reference.suffixOf ctx tokens := by
    intro tokens
    unfold Reference.suffixOf Context.suffixFor
    rw [h.overrides]
  intro info hinfo
  obtain ⟨located, hlocated, hrest⟩ := Except.bind_eq_ok.1 hinfo
  obtain ⟨-, node, hlocated', -⟩ := hkeeps.leads ctx ctx' ref located h.before h.after h.current
    howns hlocated
  refine ⟨info, Except.bind_eq_ok.2 ⟨_, hlocated', ?_⟩, rfl⟩
  simpa only [hsuffix] using hrest

theorem reference : Except.Keeps Resolved.SameEnd (Resolve.reference ctx ref)
    (Resolve.reference ctx' ref) := by
  rw [Resolve.reference_eq, Resolve.reference_eq]
  refine (h.info hkeeps howns).bind fun info _ _ heq => ?_
  subst heq
  refine (h.follow hkeeps howns).bind fun e e' _ he => ?_
  obtain ⟨raw, _⟩ := e
  obtain ⟨raw', _⟩ := e'
  obtain ⟨hraw, -⟩ := he
  dsimp only at hraw ⊢
  rw [Schema.kind?_isNone_eq hraw, hraw.values, hraw.typeNameOf?_eq]
  split_ifs
  · exact .error _ _
  · exact .ok (.inr ⟨rfl, raw', hraw.ofMembers?_eq, rfl⟩)

end

/-! ## Types -/

section
variable (hkeeps : v.Keeps) (h : v.Pair ctx ctx')
include hkeeps h

/-- Members get the same names. -/
theorem names_agree : Resolve.NamesAgree ctx ctx' := by
  refine Resolve.namesAgree_of_isDeclared fun name => ?_
  unfold Context.isDeclared Context.targetSchemas
  rw [h.before, h.after, h.target, h.target', hkeeps.schemas]

variable {w : Value} (howns : ctx.Owns w.refs)
include howns

theorem references_kept : ∀ t ∈ (Schema.ofValue w).inside, Resolve.ReferenceKept ctx ctx' t := by
  intro t ht
  cases t with
  | reference raw ref =>
    refine h.reference hkeeps (howns.mono (List.cons_subset.2 ⟨?_, List.nil_subset _⟩))
    exact Schema.refs_ofValue w (Schema.mem_refs.2 ⟨raw, ht⟩)
  | _ => trivial

/-- The schema that a value is read as has the same type. -/
theorem value (name : Option String) :
    Timed.Keeps Resolved.SameEnd (Resolve.value ctx (Schema.ofValue w) name)
      (Resolve.value ctx' (Schema.ofValue w) name) :=
  Resolve.value_kept (h.names_agree hkeeps) (h.references_kept hkeeps howns) name

theorem slot (name : Option String) (combined : Bool) :
    Timed.Keeps Resolved.SameEnd (Resolve.slot ctx (Schema.ofValue w) name combined)
      (Resolve.slot ctx' (Schema.ofValue w) name combined) :=
  Resolve.slot_kept (h.names_agree hkeeps) (h.references_kept hkeeps howns) name combined

end
end Pair
end Revision
end ApiTypes

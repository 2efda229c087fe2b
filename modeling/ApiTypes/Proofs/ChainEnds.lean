import ApiTypes.Proofs.Chains
import ApiTypes.Proofs.Tolerance

/-!
# How chains of references end

* `Context.along` : a context after some places have been entered on the way to a document;
* `Reference.Leads` : the references that a chain comes to, each with the document in which it
  stands and the places that were entered before it;
* `Reference.Ends` : how a chain ends at a reference that it has come to;
* `Reference.followFor_ends` : one step of a chain ends it or enters a place where it has not been;
* `chain_ends` : every chain ends, in one of these ways;
* `chain_ends_broken` : a reference that leads nowhere, and is not reported as one.
-/

namespace ApiTypes

/-- A context that reads a document, with the places that were entered on the way to it. -/
def Context.along (ctx : Context) (document : String) (places : List (String × String)) :
    Context :=
  { ctx with current := document, visiting := ctx.visiting ++ places }

namespace Reference

/-- The place that a reference leads to. -/
def Located.place (located : Located) : String × String := (located.document, located.pointer)

/-- The reference that a value is, if it is one. -/
def refOfValue? (v : Value) : Option String := v.members?.bind Schema.refOf?

/-- A chain comes to a reference in a document after it has entered some places, one after another:
at each of them stands the next reference. -/
inductive Leads (ctx : Context) (ref : String) : List (String × String) → String → String → Prop
  | here : Leads ctx ref [] ctx.current ref
  | next {places : List (String × String)} {document later next : String} {located : Located} :
    Leads ctx ref places document later →
    locate (ctx.reading document) later = .ok located → refOfValue? located.node = some next →
    Leads ctx ref (places ++ [located.place]) located.document next

/-- How a chain ends at a reference that it has come to in a document. -/
inductive Ends (ctx : Context) (document : String) (places : List (String × String))
    (last : String) : Except Fault (Members × Context) → Prop
  /-- The reference leads nowhere, which is a failure of the document that holds it. -/
  | lost {f : Fault} (hlost : Lost (ctx.reading document) last f) :
    Ends ctx document places last (.error f)
  /-- The reference cannot be looked up. -/
  | odd {f : Fault} (hodd : Odd (ctx.reading document) last f) :
    Ends ctx document places last (.error f)
  /-- The reference leads to a place that is being followed or that the chain has entered. It is
  what the chain ends with, in the document that holds it. -/
  | again {located : Located} (hlocated : locate (ctx.reading document) last = .ok located)
      (hagain : located.place ∈ ctx.visiting ++ places) :
    Ends ctx document places last (.ok (mappingOf last, ctx.along document places))
  /-- The reference leads to what is no reference: a mapping, or else nothing is said there. -/
  | node {located : Located} (hlocated : locate (ctx.reading document) last = .ok located)
      (hnew : located.place ∉ ctx.visiting ++ places) (hnode : refOfValue? located.node = none) :
    Ends ctx document places last (.ok (located.node.members?.getD [],
      ctx.along located.document (places ++ [located.place])))

variable {ctx : Context} {ref : String}

theorem along_nil (ctx : Context) : ctx.along ctx.current [] = ctx := by
  rw [Context.along, List.append_nil]

variable {document : String} {places : List (String × String)} {located : Located}

theorem isVisiting_along : (ctx.along document places).isVisiting located.document located.pointer =
    decide (located.place ∈ ctx.visiting ++ places) := by
  rw [Bool.eq_iff_iff, decide_eq_true_iff]
  exact List.contains_iff_mem

/-- A place that has not been entered is one more on the way. -/
theorem entering_along (hnew : located.place ∉ ctx.visiting ++ places) :
    ((ctx.along document places).reading located.document).entering located.document
      located.pointer = ctx.along located.document (places ++ [located.place]) := by
  have hnot : ((ctx.along document places).reading located.document).isVisiting located.document
      located.pointer = false := isVisiting_along.trans (decide_eq_false hnew)
  rw [Context.entering, hnot, if_neg Bool.false_ne_true, Context.along, Context.along,
    ← List.append_assoc]
  rfl

/-- One step of a chain, in words of its way: it fails, it ends, or it goes on one place further. -/
theorem followFor_along (steps : Nat) (later : String) :
    followFor (steps + 1) (ctx.along document places) later =
      match locate (ctx.reading document) later with
      | .error f => .error f
      | .ok located =>
        if located.place ∈ ctx.visiting ++ places then
          .ok (mappingOf later, ctx.along document places)
        else
          let deeper := ctx.along located.document (places ++ [located.place])
          match refOfValue? located.node with
          | some next => followFor steps deeper next
          | none => .ok (located.node.members?.getD [], deeper) := by
  have hlocate : locate (ctx.along document places) later = locate (ctx.reading document) later :=
    rfl
  rw [followFor, hlocate]
  cases locate (ctx.reading document) later with
  | error f => rfl
  | ok located =>
    dsimp only [bind, Except.bind]
    rw [isVisiting_along]
    by_cases hagain : located.place ∈ ctx.visiting ++ places
    · rw [if_pos (decide_eq_true hagain), if_pos hagain]
      rfl
    · rw [if_neg (mt of_decide_eq_true hagain), if_neg hagain, entering_along hagain]
      obtain ⟨key, pointer, node⟩ := located
      cases node with
      | map ms =>
        have hnext : refOfValue? (.map ms) = Schema.refOf? ms := rfl
        dsimp only
        rw [hnext]
        cases Schema.refOf? ms <;> rfl
      | list items => rfl
      | atom a => rfl

/-- Only a mapping is a reference. -/
theorem exists_of_refOfValue {v : Value} {next : String} (h : refOfValue? v = some next) :
    ∃ ms, v = .map ms ∧ Schema.refOf? ms = some next := by
  cases v with
  | map ms => exact ⟨ms, rfl, h⟩
  | list items => cases h
  | atom a => cases h

/-- A chain goes on to places where it has not been, so with more steps than there are such places
it ends. The induction is on the steps, each of which leaves fewer of these places. -/
theorem followFor_ends {pointers : List String} (hlater : laterPointers ctx.registry ⊆ pointers)
    {steps : Nat} {later : String} (hleads : Leads ctx ref places document later)
    (hnodup : places.Nodup) (hapart : places.Disjoint ctx.visiting)
    (hpointer : (Pointer.split later).2 ∈ pointers)
    (hsteps : (unvisited (ctx.along document places) pointers).card < steps) :
    ∃ entered owner last, Leads ctx ref entered owner last ∧ entered.Nodup ∧
      entered.Disjoint ctx.visiting ∧
      Ends ctx owner entered last (followFor steps (ctx.along document places) later) := by
  induction steps generalizing places document later with
  | zero => exact absurd hsteps (Nat.not_lt_zero _)
  | succ steps ih =>
    rw [followFor_along]
    cases hlocated : locate (ctx.reading document) later with
    | error f =>
      have hfails : Lost (ctx.reading document) later f ∨ Odd (ctx.reading document) later f :=
        failsOnly_locate_of (P := fun f => Lost (ctx.reading document) later f ∨
          Odd (ctx.reading document) later f) (fun _ => .inl) (fun _ => .inr) f hlocated
      rcases hfails with hlost | hodd
      · exact ⟨places, document, later, hleads, hnodup, hapart, .lost hlost⟩
      · exact ⟨places, document, later, hleads, hnodup, hapart, .odd hodd⟩
    | ok located =>
      dsimp only
      by_cases hagain : located.place ∈ ctx.visiting ++ places
      · rw [if_pos hagain]
        exact ⟨places, document, later, hleads, hnodup, hapart, .again hlocated hagain⟩
      rw [if_neg hagain]
      cases hnode : refOfValue? located.node with
      | none =>
        exact ⟨places, document, later, hleads, hnodup, hapart, .node hlocated hagain hnode⟩
      | some next =>
        obtain ⟨hnotVisiting, hnotEntered⟩ : located.place ∉ ctx.visiting ∧
            located.place ∉ places := by
          rwa [List.mem_append, not_or] at hagain
        obtain ⟨ms, hmap, hnext⟩ := exists_of_refOfValue hnode
        have hnew : (ctx.along document places).isVisiting located.document located.pointer =
            false := isVisiting_along.trans (decide_eq_false hagain)
        have hless : (unvisited (((ctx.along document places).reading located.document).entering
            located.document located.pointer) pointers).card <
              (unvisited (ctx.along document places) pointers).card :=
          card_unvisited_entering hlocated hnew ((locate_parts hlocated).2 ▸ hpointer)
        rw [entering_along hagain] at hless
        apply ih (hleads.next hlocated hnode)
        · exact List.nodup_append'.2 ⟨hnodup, List.nodup_singleton _,
            List.disjoint_singleton.2 hnotEntered⟩
        · exact List.disjoint_append_left.2 ⟨hapart, List.singleton_disjoint.2 hnotVisiting⟩
        · have hnextPointer : (Pointer.split next).2 ∈
              laterPointers (ctx.reading document).registry := mem_laterPointers hlocated hmap hnext
          exact hlater hnextPointer
        · exact Nat.lt_of_lt_of_le hless (Nat.lt_succ_iff.1 hsteps)

/-- The chain that is followed ends. -/
theorem follow_ends (ctx : Context) (ref : String) :
    ∃ places document last, Leads ctx ref places document last ∧ places.Nodup ∧
      places.Disjoint ctx.visiting ∧ Ends ctx document places last (follow ctx ref) := by
  have hcard := card_unvisited_lt ctx ref
  rw [← along_nil ctx] at hcard
  have hends := followFor_ends (List.subset_cons_self _ _) .here List.nodup_nil
    (List.disjoint_nil_left _) (List.mem_cons_self ..) hcard
  rwa [along_nil] at hends

end Reference

/-- A chain of references ends, and more steps than it is given change nothing. It ends at the first
reference that leads nowhere, that leads to no further reference, or that leads to a place which is
being followed or which the chain has entered; the places that it has entered before are different
ones, in which no reference being followed was. -/
theorem chain_ends (ctx : Context) (ref : String) :
    (∀ steps, Reference.stepBound ctx.registry ≤ steps →
      Reference.followFor steps ctx ref = Reference.follow ctx ref) ∧
    ∃ places document last, Reference.Leads ctx ref places document last ∧ places.Nodup ∧
      places.Disjoint ctx.visiting ∧
      Reference.Ends ctx document places last (Reference.follow ctx ref) :=
  ⟨fun _ hsteps => Reference.follow_eq hsteps, Reference.follow_ends ctx ref⟩

/-- A document of the web with a reference to an address that has half a pair of brackets. -/
def bracketContext : Context :=
  let document : Value := .map [(.text "A", .map [(.text "$ref", .text "//[x#/B")])]
  .start [("https://example.com/a.json", document)] "https://example.com/a.json" (.map [])

/-- The chain comes to a reference that is the address of no document, but it does not fail as one
that leads nowhere. -/
theorem chain_ends_broken :
    (∃ places, Reference.Leads bracketContext "#/A" places bracketContext.current "//[x#/B") ∧
      Reference.follow bracketContext "#/A" = .error (.defect .badAddress) := by
  have hlocated : Reference.locate (bracketContext.reading bracketContext.current) "#/A" =
      .ok ⟨bracketContext.current, "/A", .map [(.text "$ref", .text "//[x#/B")]⟩ := rfl
  exact ⟨⟨_, .next .here hlocated rfl⟩, rfl⟩

end ApiTypes

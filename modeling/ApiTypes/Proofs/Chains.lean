import ApiTypes.Proofs.Entries
import ApiTypes.Proofs.Parts
import Mathlib.Data.Finset.Prod

/-!
# Chains of references

* `Reference.laterPointers` : the pointers that a chain can come to after its first step;
* `Reference.unvisited` : the places at such pointers that no reference being followed has entered;
* `Reference.next_unvisited` : a step of a chain enters one of them;
* `Reference.followFor_eq` : so with more steps than there are such places, more steps change
  nothing;
* `Reference.card_unvisited_lt`, `Reference.follow_eq` : the steps that a chain is given are enough.
-/

namespace ApiTypes.Reference

/-- The pointers that a chain can come to after its first step: those of the references in the
documents. -/
def laterPointers (registry : Registry) : List String :=
  (registry.flatMap fun d => d.2.refs).map fun r => (Pointer.split r).2

/-- The places at some pointers that no reference being followed has entered. -/
def unvisited (ctx : Context) (pointers : List String) : Finset (String × String) :=
  (ctx.registry.map Prod.fst).toFinset ×ˢ pointers.toFinset \ ctx.visiting.toFinset

theorem mem_unvisited {ctx : Context} {pointers : List String} {key pointer : String} :
    (key, pointer) ∈ unvisited ctx pointers ↔ (key ∈ ctx.registry.map Prod.fst ∧
      pointer ∈ pointers) ∧ (key, pointer) ∉ ctx.visiting := by
  rw [unvisited, Finset.mem_sdiff, Finset.mem_product, List.mem_toFinset, List.mem_toFinset,
    List.mem_toFinset]

variable {ctx : Context} {ref : String} {located : Located} {places : List String}

/-- A reference that is found leads to a document that is loaded. -/
theorem mem_keys_of_locate (h : locate ctx ref = .ok located) :
    located.document ∈ ctx.registry.map Prod.fst := by
  obtain ⟨document, hdocument, -⟩ := locate_ok h
  refine Keyed.mem_keys_of_get? (?_ : _ = some document)
  exact (Option.filter_eq_some_iff.1 hdocument).1

/-- A step of a chain enters a place that was left. -/
theorem card_unvisited_entering (h : locate ctx ref = .ok located)
    (hvisiting : ctx.isVisiting located.document located.pointer = false)
    (hplaces : located.pointer ∈ places) :
    (unvisited ((ctx.reading located.document).entering located.document located.pointer)
      places).card < (unvisited ctx places).card := by
  have hnot : (located.document, located.pointer) ∉ ctx.visiting := by
    simpa [Context.isVisiting] using hvisiting
  have hentering : (ctx.reading located.document).entering located.document located.pointer =
      { ctx with
        current := located.document
        visiting := ctx.visiting ++ [(located.document, located.pointer)] } := by
    have hreading : (ctx.reading located.document).isVisiting located.document located.pointer =
        false := hvisiting
    rw [Context.entering, hreading]
    rfl
  refine Finset.card_lt_card (Finset.ssubset_iff_of_subset ?_ |>.2
    ⟨(located.document, located.pointer), ?_, ?_⟩)
  · rintro ⟨key, pointer⟩ hmem
    rw [hentering, mem_unvisited, List.mem_append, not_or] at hmem
    exact mem_unvisited.2 ⟨hmem.1, hmem.2.1⟩
  · exact mem_unvisited.2 ⟨⟨mem_keys_of_locate h, hplaces⟩, hnot⟩
  · rw [hentering, mem_unvisited]
    simp

/-- What a chain comes to refers to what the documents refer to. -/
theorem mem_laterPointers {ms : Members} {next : String} (h : locate ctx ref = .ok located)
    (hnode : located.node = .map ms) (hnext : Schema.refOf? ms = some next) :
    (Pointer.split next).2 ∈ laterPointers ctx.registry := by
  obtain ⟨document, hdocument, hwalk⟩ := locate_ok h
  have hmem := Keyed.mem_of_get? (Option.filter_eq_some_iff.1 hdocument).1
  refine List.mem_map.2 ⟨next, List.mem_flatMap.2 ⟨_, hmem, ?_⟩, rfl⟩
  exact Pointer.refs_of_walk hwalk (hnode ▸ Value.ref_mem hnext)

/-- One step more than there are places left changes nothing. -/
theorem followFor_succ {steps : Nat} (href : (Pointer.split ref).2 ∈ places)
    (hplaces : laterPointers ctx.registry ⊆ places)
    (hsteps : (unvisited ctx places).card < steps) :
    followFor (steps + 1) ctx ref = followFor steps ctx ref := by
  induction steps generalizing ctx ref with
  | zero => exact absurd hsteps (Nat.not_lt_zero _)
  | succ steps ih =>
    rw [followFor, followFor]
    cases hlocated : locate ctx ref with
    | error f => rfl
    | ok located =>
      dsimp only [bind, Except.bind]
      split_ifs with hvisiting
      · rfl
      · have hpointer : located.pointer ∈ places := (locate_parts hlocated).2 ▸ href
        have hless := card_unvisited_entering hlocated (Bool.eq_false_iff.2 hvisiting) hpointer
        split
        · rename_i ms hnode
          split
          · rename_i next hnext
            refine ih (hplaces ?_) ?_ ?_
            · exact mem_laterPointers hlocated hnode hnext
            · exact Context.keeps_entering (Q := fun c => laterPointers c.registry ⊆ places)
                (fun _ _ _ h => h) hplaces _ _
            · omega
          · rfl
        · rfl

/-- With more steps than there are places left, the number of steps does not matter. -/
theorem followFor_eq {steps more : Nat} (href : (Pointer.split ref).2 ∈ places)
    (hplaces : laterPointers ctx.registry ⊆ places)
    (hsteps : (unvisited ctx places).card < steps) (hmore : steps ≤ more) :
    followFor more ctx ref = followFor steps ctx ref := by
  induction more, hmore using Nat.le_induction with
  | base => rfl
  | succ more hmore ih =>
    rw [followFor_succ href hplaces (by omega), ih]

/-- A chain is given more steps than there are places to which it can come. -/
theorem card_unvisited_lt (ctx : Context) (ref : String) :
    (unvisited ctx ((Pointer.split ref).2 :: laterPointers ctx.registry)).card <
      stepBound ctx.registry := by
  let places := (Pointer.split ref).2 :: laterPointers ctx.registry
  have hkeys := List.toFinset_card_le (ctx.registry.map Prod.fst)
  have hplaces := List.toFinset_card_le places
  rw [List.length_map] at hkeys
  rw [List.length_cons, laterPointers, List.length_map] at hplaces
  calc (unvisited ctx places).card
      ≤ ((ctx.registry.map Prod.fst).toFinset ×ˢ places.toFinset).card :=
        Finset.card_le_card Finset.sdiff_subset
    _ = (ctx.registry.map Prod.fst).toFinset.card * places.toFinset.card :=
        Finset.card_product _ _
    _ ≤ ctx.registry.length * ((ctx.registry.flatMap fun d => d.2.refs).length + 1) :=
        Nat.mul_le_mul hkeys hplaces
    _ < stepBound ctx.registry := Nat.lt_succ_self _

/-- A chain ends within the steps that it is given. -/
theorem follow_eq {steps : Nat} (h : stepBound ctx.registry ≤ steps) :
    followFor steps ctx ref = follow ctx ref :=
  followFor_eq (List.mem_cons_self ..) (List.subset_cons_self _ _) (card_unvisited_lt ctx ref) h

end ApiTypes.Reference

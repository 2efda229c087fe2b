import ApiTypes.Proofs.Faults
import ApiTypes.Proofs.Made

/-!
# What is reported of several failures

The entries of a document are resolved together, and so are the operations of the target. When some
fail, which one is reported depends on their courses; what is reported of it does not.

* `Fault.Unplaced`, `unplaced_laws` : types and operations fail without naming a declaration;
* `Definition.alone`, `Operation.alone` : an entry and an operation without the others;
* `Relabelled` : a failure alone and the same failure under the name of an item;
* `Reports` : a whole that fails just when an item does, and reports what it fails on alone;
* `Timed.reports_all` : items that are started together are reported so;
* `failures_reported` : so are the entries of a document and the operations of the target.
-/

namespace ApiTypes

/-! ## Failures that name no declaration -/

/-- A failure in which no declaration is named. -/
def Fault.Unplaced (f : Fault) : Prop := ∀ u, f = .unresolved u → u.declaration = none

theorem unplaced_defect (d : Defect) : Fault.Unplaced (.defect d) := by
  intro u h
  cases h

theorem Fault.Unplaced.within {u : Unresolved} (h : Unplaced (.unresolved u)) (name : String) :
    (unresolved u).within name = unresolved { u with declaration := some name } := by
  have hnone : u.declaration = none := h u rfl
  simp [Fault.within, Unresolved.within, Unresolved.isPlaced, hnone]

/-- No reference that is looked for names a declaration when it leads nowhere. -/
theorem unplaced_laws : Reference.Laws Fault.Unplaced (fun _ _ => True) where
  defect := unplaced_defect
  mono _ _ _ _ _ := trivial
  fails ctx ref _ := by
    have hunresolved : ∀ reason, FailsOnly Fault.Unplaced
        (Reference.unresolved ctx ref reason : Except Fault Reference.Located) := by
      refine fun reason => failsOnly_error fun u hu => ?_
      obtain rfl := Fault.unresolved.inj hu
      rfl
    refine (Reference.failsOnly_documentKey unplaced_defect _).bind fun key _ => ?_
    split
    · exact hunresolved _
    · split
      · exact failsOnly_ok _
      · exact hunresolved _
      · exact Form.failsOnly_fail unplaced_defect _
  found _ _ _ _ _ := trivial

/-! ## Items alone -/

/-- The type of an entry, resolved without the other entries. -/
def Definition.alone (ctx : Context) (e : Components.Entry) : Except Fault Resolved := do
  let name ← e.declaredName
  (Resolve.value ctx (Schema.ofValue e.schema) (some name)).outcome

/-- The types of an operation, without the other operations. -/
def Operation.alone (ctx : Context) (w : Written) : Except Fault Operation :=
  (make ctx w.method w.path w.pathItem w.operation).outcome

/-- The name under which an operation is reported. -/
def Operation.Written.label (w : Written) : String := w.method.toUpper ++ " " ++ w.path.plain

/-- What an item gives alone, and what it gives among others: a reference that leads nowhere gets
the name of the item. -/
inductive Relabelled {α β : Type} (label : Except Fault String) :
    Except Fault α → Except Fault β → Prop
  | ok (a : α) (b : β) : Relabelled label (.ok a) (.ok b)
  | unresolved (u : Unresolved) (name : String) (hlabel : label = .ok name) :
    Relabelled label (.error (.unresolved u))
      (.error (.unresolved { u with declaration := some name }))

namespace Relabelled

variable {α β : Type} {label : Except Fault String} {own : Except Fault α} {among : Except Fault β}

theorem fails (h : Relabelled label own among) : (∃ f, own = .error f) ↔ ∃ f, among = .error f := by
  cases h with
  | ok a b => simp
  | unresolved u name hlabel => simp

theorem of_error {f : Fault} (h : Relabelled label own among) (hf : among = .error f) :
    ∃ u name, own = .error (.unresolved u) ∧ label = .ok name ∧
      f = .unresolved { u with declaration := some name } := by
  cases h with
  | ok a b => cases hf
  | unresolved u name hlabel => exact ⟨u, name, rfl, hlabel, (Except.error.inj hf).symm⟩

end Relabelled

/-- A whole made of items: it fails just when one of them does alone, and what it then reports is
the failure of an item alone under the name of this item. -/
structure Reports {ι α β : Type} (items : List ι) (alone : ι → Except Fault α)
    (label : ι → Except Fault String) (whole : Except Fault β) : Prop where
  fails : (∃ f, whole = .error f) ↔ ∃ i ∈ items, ∃ f, alone i = .error f
  reports : ∀ f, whole = .error f → ∃ i ∈ items, ∃ u name,
    alone i = .error (.unresolved u) ∧ label i = .ok name ∧
      f = .unresolved { u with declaration := some name }

theorem Timed.exists_of_all_error {α : Type} {xs : List (Timed Fault α)} {f : Fault}
    (h : (all xs).outcome = .error f) : ∃ x ∈ xs, x.outcome = .error f :=
  failsOnly_all (P := fun f => ∃ x ∈ xs, x.outcome = .error f) (fun x hx _ he => ⟨x, hx, he⟩) f h

/-- Items that are started together are reported under their own names. -/
theorem Timed.reports_all {ι α β : Type} {items : List ι} {run : ι → Timed Fault β}
    {alone : ι → Except Fault α} {label : ι → Except Fault String}
    (h : ∀ i ∈ items, Relabelled (label i) (alone i) (run i).outcome) :
    Reports items alone label (all (items.map run)).outcome where
  fails := by
    constructor
    · rintro ⟨f, hf⟩
      obtain ⟨x, hx, hfails⟩ := exists_of_all_error hf
      obtain ⟨i, hi, rfl⟩ := List.mem_map.1 hx
      exact ⟨i, hi, (h i hi).fails.2 ⟨f, hfails⟩⟩
    · rintro ⟨i, hi, halone⟩
      obtain ⟨f, hf⟩ := (h i hi).fails.1 halone
      cases hall : (all (items.map run)).outcome with
      | error f => exact ⟨f, rfl⟩
      | ok bs =>
        obtain ⟨b, -, hb⟩ := exists_right_of_forall₂ (outcome_all_ok.1 hall)
          (List.mem_map_of_mem hi)
        exact absurd (hf.symm.trans hb) (by simp)
  reports f hf := by
    obtain ⟨x, hx, hfails⟩ := exists_of_all_error hf
    obtain ⟨i, hi, rfl⟩ := List.mem_map.1 hx
    obtain ⟨u, name, halone, hlabel, rfl⟩ := (h i hi).of_error hfails
    exact ⟨i, hi, u, name, halone, hlabel, rfl⟩

theorem Reports.map {ι α β γ : Type} {items : List ι} {alone : ι → Except Fault α}
    {label : ι → Except Fault String} {whole : Except Fault β}
    (h : Reports items alone label whole) (f : β → γ) :
    Reports items alone label (whole.map f) := by
  cases whole with
  | error e => exact ⟨by simpa [Except.map] using h.fails, by simpa [Except.map] using h.reports⟩
  | ok b => exact ⟨by simpa [Except.map] using h.fails, by simp [Except.map]⟩

/-! ## The two wholes -/

/-- Whether a failure is a reference that leads nowhere. -/
def Fault.isUnresolved : Fault → Bool
  | unresolved _ => true
  | _ => false

/-- An outcome that is a value or a reference that leads nowhere. -/
def Resolves {α : Type} (x : Except Fault α) : Prop := FailsOnly (·.isUnresolved = true) x

instance {α : Type} (x : Except Fault α) : Decidable (Resolves x) :=
  match x with
  | .ok a => .isTrue (failsOnly_ok a)
  | .error f => decidable_of_iff (f.isUnresolved = true)
    ⟨fun h _ he => Except.error.inj he ▸ h, fun h => h f rfl⟩

theorem Resolves.exists_of_error {α : Type} {x : Except Fault α} {f : Fault} (h : Resolves x)
    (hf : x = .error f) : ∃ u, f = .unresolved u := by
  have hunresolved := h f hf
  cases f with
  | unresolved u => exact ⟨u, rfl⟩
  | _ => cases hunresolved

namespace Definition

variable {ctx : Context} {e : Components.Entry}

theorem outcome_ofEntry : (ofEntry ctx e).outcome =
    e.declaredName >>= fun name => (ofSchema ctx name (Schema.ofValue e.schema)).outcome := by
  unfold ofEntry Components.Entry.declaredName
  rw [Timed.outcome_bind]
  simp only [Timed.outcome_bind, Timed.outcome_ofExcept, bind_assoc]

theorem failsOnly_declaredName {P : Fault → Prop} (hdefect : ∀ d, P (.defect d)) :
    FailsOnly P e.declaredName :=
  (Form.failsOnly_pascal hdefect _).bind fun _ _ => Form.failsOnly_suffixed hdefect _ _

/-- An entry that is resolved among others fails as it does alone, under its declared name. -/
theorem relabelled (h : Resolves (alone ctx e)) :
    Relabelled e.declaredName (alone ctx e) (ofEntry ctx e).outcome := by
  rw [outcome_ofEntry]
  unfold alone at h ⊢
  cases hname : e.declaredName with
  | error f =>
    rw [hname] at h
    obtain ⟨u, rfl⟩ := h.exists_of_error rfl
    exact absurd hname (failsOnly_declaredName (P := (· ≠ .unresolved u)) (by simp) _ · rfl)
  | ok name =>
    rw [hname] at h
    change Relabelled _ (Resolve.value ctx (Schema.ofValue e.schema) (some name)).outcome
      (ofSchema ctx name (Schema.ofValue e.schema)).outcome
    unfold ofSchema
    rw [Timed.outcome_bind, Timed.mapError]
    cases hvalue : (Resolve.value ctx (Schema.ofValue e.schema) (some name)).outcome with
    | ok r => exact .ok _ _
    | error f =>
      obtain ⟨u, rfl⟩ := Resolves.exists_of_error h hvalue
      have hunplaced := unplaced_laws.failsOnly_value trivial _ _ hvalue
      change Relabelled _ _ (.error ((Fault.unresolved u).within name))
      rw [hunplaced.within]
      exact .unresolved u name rfl

end Definition

/-- An operation that is resolved among others fails as it does alone, under its method and path. -/
theorem Operation.relabelled {ctx : Context} {w : Written} (h : Resolves (alone ctx w)) :
    Relabelled (.ok w.label) (alone ctx w) (ofWritten ctx w).outcome := by
  unfold alone at h ⊢
  unfold ofWritten
  rw [Timed.mapError]
  cases hmake : (make ctx w.method w.path w.pathItem w.operation).outcome with
  | ok op => exact .ok _ _
  | error f =>
    obtain ⟨u, rfl⟩ := h.exists_of_error hmake
    have hunplaced := unplaced_laws.failsOnly_make trivial _ _ _ hmake
    change Relabelled _ _ (.error ((Fault.unresolved u).within w.label))
    rw [hunplaced.within]
    exact .unresolved u _ rfl

/-- Failures are neither lost nor changed by what is resolved beside them. Where each entry of a
document is resolved alone or misses a reference, the declarations of the document fail just when
one of the entries does, with the failure of an entry alone under its declared name; the operations
of the target likewise, under their methods and paths. -/
theorem failures_reported (ctx : Context) :
    (∀ es, Components.entries ctx = .ok es → (∀ e ∈ es, Resolves (Definition.alone ctx e)) →
      Reports es (Definition.alone ctx) (·.declaredName) (Definition.ofDocument ctx).outcome) ∧
    ∀ ws, Operation.written ctx = .ok ws → (∀ w ∈ ws, Resolves (Operation.alone ctx w)) →
      Reports ws (Operation.alone ctx) (.ok ·.label) (Operation.ofTarget ctx).outcome := by
  refine ⟨fun es hes h => ?_, fun ws hws h => ?_⟩
  · have hwhole : (Definition.ofDocument ctx).outcome =
        (Timed.all (es.map (Definition.ofEntry ctx))).outcome.map List.flatten := by
      unfold Definition.ofDocument
      rw [Timed.outcome_bind, Timed.outcome_ofExcept, hes]
      change (Timed.all _ >>= fun results => pure results.flatten).outcome = _
      rw [Timed.outcome_bind]
      rfl
    rw [hwhole]
    exact (Timed.reports_all fun e he => Definition.relabelled (h e he)).map _
  · have hwhole : (Operation.ofTarget ctx).outcome =
        (Timed.all (ws.map (Operation.ofWritten ctx))).outcome := by
      unfold Operation.ofTarget
      rw [Timed.outcome_bind, Timed.outcome_ofExcept, hws]
      rfl
    rw [hwhole]
    exact Timed.reports_all fun w hw => Operation.relabelled (h w hw)

/-- A document in which two entries and an operation refer to what is not there. -/
def brokenDocument : Value :=
  let ref (target : String) : Value := .map [(.text "$ref", .text target)]
  .map [
    (.text "components", .map [(.text "schemas", .map [
      (.text "Tag", .map [(.text "type", .text "string")]),
      (.text "Owner", .map [(.text "properties", .map [
        (.text "tag", ref "#/components/schemas/Tag"), (.text "pet", ref "#/Pet")])]),
      (.text "Shop", ref "shops.json")])]),
    (.text "paths", .map [(.text "/pets", .map [
      (.text "get", .map [(.text "requestBody", ref "#/Body")]),
      (.text "put", .map [])])])]

def brokenContext : Context :=
  .start [("/api.json", brokenDocument)] "/api.json" (.map [])

theorem failures_reported_broken :
    (∃ es, Components.entries brokenContext = .ok es ∧ ∃ e ∈ es, ∃ u name,
      Definition.alone brokenContext e = .error (.unresolved u) ∧ e.declaredName = .ok name ∧
      (Definition.ofDocument brokenContext).outcome =
        .error (.unresolved { u with declaration := some name })) ∧
    ∃ ws, Operation.written brokenContext = .ok ws ∧ ∃ w ∈ ws, ∃ u,
      Operation.alone brokenContext w = .error (.unresolved u) ∧
      (Operation.ofTarget brokenContext).outcome =
        .error (.unresolved { u with declaration := some w.label }) := by
  obtain ⟨hdefinitions, hoperations⟩ := failures_reported brokenContext
  constructor
  · obtain ⟨es, hes, halone⟩ := Except.exists_of_any (x := Components.entries brokenContext)
      (p := fun es => decide (∀ e ∈ es, Resolves (Definition.alone brokenContext e)))
      (by decide +kernel)
    obtain ⟨f, hf⟩ : ∃ f, (Definition.ofDocument brokenContext).outcome = .error f :=
      Except.exists_of_isNone (by decide +kernel)
    obtain ⟨e, he, u, name, hu, hname, rfl⟩ :=
      (hdefinitions es hes (of_decide_eq_true halone)).reports f hf
    exact ⟨es, hes, e, he, u, name, hu, hname, hf⟩
  · obtain ⟨ws, hws, halone⟩ := Except.exists_of_any (x := Operation.written brokenContext)
      (p := fun ws => decide (∀ w ∈ ws, Resolves (Operation.alone brokenContext w)))
      (by decide +kernel)
    obtain ⟨f, hf⟩ : ∃ f, (Operation.ofTarget brokenContext).outcome = .error f :=
      Except.exists_of_isNone (by decide +kernel)
    obtain ⟨w, hw, u, name, hu, hlabel, rfl⟩ :=
      (hoperations ws hws (of_decide_eq_true halone)).reports f hf
    obtain rfl : w.label = name := Except.ok.inj hlabel
    exact ⟨ws, hws, w, hw, u, hu, hf⟩

end ApiTypes

import ApiTypes.Timed
import Mathlib.Data.List.Forall2

/-!
# Outcomes of timed computations

* `outcome_bind` : the outcome of a sequence is that of the outcomes;
* `outcome_bind_ok`, `outcome_map_ok`, `outcome_mapError_ok` : when a sequence of computations has a
  value;
* `outcome_all_ok` : computations started together have values just when each has one, whatever
  their courses;
* `Except.bind_eq_ok`, `Except.mapM_eq_ok` : the same for outcomes alone;
* `exists_left_of_forall₂`, `exists_right_of_forall₂` : partners in lists that go side by side.
-/

namespace ApiTypes

/-! ## Lists side by side -/

theorem exists_left_of_forall₂ {α β : Type} {R : α → β → Prop} {as : List α} {bs : List β}
    (h : List.Forall₂ R as bs) {b : β} (hb : b ∈ bs) : ∃ a ∈ as, R a b := by
  induction h with
  | nil => cases hb
  | cons hab _ ih =>
    rcases List.mem_cons.1 hb with rfl | hb
    · exact ⟨_, List.mem_cons_self .., hab⟩
    · obtain ⟨a, ha, hr⟩ := ih hb
      exact ⟨a, List.mem_cons_of_mem _ ha, hr⟩

theorem exists_right_of_forall₂ {α β : Type} {R : α → β → Prop} {as : List α} {bs : List β}
    (h : List.Forall₂ R as bs) {a : α} (ha : a ∈ as) : ∃ b ∈ bs, R a b :=
  exists_left_of_forall₂ h.flip ha

/-! ## Outcomes alone -/

theorem Except.bind_eq_ok {ε α β : Type} {x : Except ε α} {f : α → Except ε β} {b : β} :
    (x >>= f) = .ok b ↔ ∃ a, x = .ok a ∧ f a = .ok b := by
  cases x with
  | error e => simp [bind, Except.bind]
  | ok a => simp [bind, Except.bind]

/-- The values of a list of computations that all succeed, one for each element. -/
theorem Except.mapM_eq_ok {ε α β : Type} {f : α → Except ε β} {as : List α} {bs : List β}
    (h : as.mapM f = .ok bs) : List.Forall₂ (fun a b => f a = .ok b) as bs := by
  induction as generalizing bs with
  | nil =>
    obtain rfl : [] = bs := by simpa [pure, Except.pure] using h
    exact .nil
  | cons a as ih =>
    rw [List.mapM_cons] at h
    obtain ⟨b, hb, h⟩ := Except.bind_eq_ok.1 h
    obtain ⟨rest, hrest, h⟩ := Except.bind_eq_ok.1 h
    obtain rfl : b :: rest = bs := by simpa [pure, Except.pure] using h
    exact .cons hb (ih hrest)

/-- A value that passes a test which runs. -/
theorem Except.exists_of_any {ε α : Type} {x : Except ε α} {p : α → Bool}
    (h : x.toOption.any p = true) : ∃ a, x = .ok a ∧ p a = true := by
  cases x with
  | error e => simp [Except.toOption] at h
  | ok a => exact ⟨a, rfl, by simpa [Except.toOption] using h⟩

/-- A failure that shows when it is run. -/
theorem Except.exists_of_isNone {ε α : Type} {x : Except ε α} (h : x.toOption.isNone = true) :
    ∃ e, x = .error e := by
  cases x with
  | error e => exact ⟨e, rfl⟩
  | ok a => simp [Except.toOption] at h

/-- Which failure it is that shows when it is run. -/
theorem Except.eq_error_of_map {ε α : Type} {x : Except ε α} {e : ε}
    (h : x.map (fun _ => ()) = .error e) : x = .error e := by
  cases x with
  | error e' => exact congrArg Except.error (Except.error.inj h)
  | ok a => cases h

namespace Timed

variable {ε α β : Type}

/-! ## One computation after another -/

@[simp]
theorem outcome_ofExcept (x : Except ε α) : (ofExcept x).outcome = x := rfl

@[simp]
theorem outcome_pure (a : α) : (pure a : Timed ε α).outcome = .ok a := rfl

theorem outcome_bind (x : Timed ε α) (f : α → Timed ε β) :
    (x >>= f).outcome = x.outcome >>= fun a => (f a).outcome := by
  change (Timed.bind x f).outcome = _
  unfold Timed.bind
  cases x.outcome <;> rfl

theorem outcome_bind_ok {x : Timed ε α} {f : α → Timed ε β} {b : β} :
    (x >>= f).outcome = .ok b ↔ ∃ a, x.outcome = .ok a ∧ (f a).outcome = .ok b := by
  change (Timed.bind x f).outcome = .ok b ↔ _
  unfold Timed.bind
  cases x.outcome with
  | error e => simp
  | ok a => simp

theorem outcome_map_ok {x : Timed ε α} {f : α → β} {b : β} :
    (f <$> x).outcome = .ok b ↔ ∃ a, x.outcome = .ok a ∧ f a = b := by
  change (Timed.bind x fun a => Timed.pure (f a)).outcome = .ok b ↔ _
  unfold Timed.bind
  cases x.outcome with
  | error e => simp
  | ok a => simp [Timed.pure]

theorem outcome_mapError_ok {x : Timed ε α} {f : ε → ε} {a : α} :
    (x.mapError f).outcome = .ok a ↔ x.outcome = .ok a := by
  cases h : x.outcome with
  | error e => simp [mapError, h, Except.mapError]
  | ok b => simp [mapError, h, Except.mapError]

/-! ## Computations started together -/

theorem firstFailure_eq_none {place : Nat} {xs : List (Timed ε α)} :
    firstFailure place xs = none ↔ ∀ x ∈ xs, ∃ a, x.outcome = .ok a := by
  induction xs generalizing place with
  | nil => simp [firstFailure]
  | cons x rest ih =>
    rw [firstFailure]
    cases hx : x.outcome with
    | ok a => simp [hx, ih]
    | error e =>
      cases firstFailure (place + 1) rest with
      | none => simp [hx]
      | some later =>
        have hne : ¬ ∃ a, x.outcome = .ok a := by simp [hx]
        constructor
        · intro h
          simp only at h
          split_ifs at h
        · intro h
          exact absurd (h x (List.mem_cons_self ..)) hne

theorem values_forall₂ {xs : List (Timed ε α)} (h : ∀ x ∈ xs, ∃ a, x.outcome = .ok a) :
    List.Forall₂ (fun x a => x.outcome = .ok a) xs (values xs) := by
  induction xs with
  | nil => exact .nil
  | cons x rest ih =>
    obtain ⟨a, ha⟩ := h x (List.mem_cons_self ..)
    rw [values, ha]
    exact .cons ha (ih fun y hy => h y (List.mem_cons_of_mem _ hy))

/-- The values of computations are determined by their outcomes. -/
theorem values_eq {xs : List (Timed ε α)} {as : List α}
    (h : List.Forall₂ (fun x a => x.outcome = .ok a) xs as) : values xs = as := by
  induction h with
  | nil => rfl
  | cons hx _ ih => rw [values, hx, ih]

/-- Computations started together succeed just when each of them does. -/
theorem outcome_all_ok {xs : List (Timed ε α)} {as : List α} :
    (all xs).outcome = .ok as ↔ List.Forall₂ (fun x a => x.outcome = .ok a) xs as := by
  unfold all
  constructor
  · intro h
    split at h
    · rename_i hnone
      obtain rfl : values xs = as := by simpa using h
      exact values_forall₂ (firstFailure_eq_none.1 hnone)
    · simp at h
  · intro h
    have hall : ∀ x ∈ xs, ∃ a, x.outcome = .ok a := by
      intro x hx
      obtain ⟨a, -, ha⟩ := exists_right_of_forall₂ h hx
      exact ⟨a, ha⟩
    rw [firstFailure_eq_none.2 hall]
    simp [values_eq h]

end Timed
end ApiTypes

import ApiTypes.Keyed
import ApiTypes.Proofs.Outcome

/-!
# Two runs side by side

What two runs over different documents have in common is shown step by step: each step of the one
fails as the step of the other does, or gives a value that is related to its value.

* `Except.Agree R x y` : the same failure, or values that `R` relates;
* `Timed.Agree R x y` : outcomes that agree, in the same course;
* `Timed.Agree.bind`, `Timed.Agree.all` : what is made in steps, or of computations started
  together, agrees if these do;
* `Keyed.putBy_related` : so does what is put under keys.
-/

namespace ApiTypes

/-! ## Outcomes -/

/-- Two outcomes are the same failure or related values. -/
inductive Except.Agree {ε α β : Type} (R : α → β → Prop) : Except ε α → Except ε β → Prop
  | ok {a : α} {b : β} (h : R a b) : Agree R (.ok a) (.ok b)
  | error (e : ε) : Agree R (.error e) (.error e)

namespace Except.Agree

variable {ε α β γ δ : Type} {R : α → β → Prop} {S : γ → δ → Prop}

theorem refl {R : α → α → Prop} (h : ∀ a, R a a) (x : Except ε α) : Agree R x x := by
  cases x with
  | error e => exact .error e
  | ok a => exact .ok (h a)

theorem eq {x y : Except ε α} (h : Agree (· = ·) x y) : x = y := by
  cases h with
  | ok h => rw [h]
  | error e => rfl

theorem imp {T : α → β → Prop} {x : Except ε α} {y : Except ε β} (h : Agree R x y)
    (hRT : ∀ a b, R a b → T a b) : Agree T x y := by
  cases h with
  | ok h => exact .ok (hRT _ _ h)
  | error e => exact .error e

theorem bind {x : Except ε α} {y : Except ε β} {f : α → Except ε γ} {g : β → Except ε δ}
    (h : Agree R x y) (hf : ∀ a b, R a b → Agree S (f a) (g b)) : Agree S (x >>= f) (y >>= g) := by
  cases h with
  | ok h => exact hf _ _ h
  | error e => exact .error e

/-- Steps that give the same value need not be told apart. -/
theorem bind_eq {x y : Except ε α} {f : α → Except ε γ} {g : α → Except ε δ} (h : x = y)
    (hf : ∀ a, Agree S (f a) (g a)) : Agree S (x >>= f) (y >>= g) := by
  subst h
  exact (refl (fun _ => rfl) x).bind fun a _ hab => hab ▸ hf a

theorem mapError {x : Except ε α} {y : Except ε β} (h : Agree R x y) (f : ε → ε) :
    Agree R (x.mapError f) (y.mapError f) := by
  cases h with
  | ok h => exact .ok h
  | error e => exact .error (f e)

end Except.Agree

/-! ## Timed computations -/

/-- Two computations agree in their outcomes and take the same course. -/
structure Timed.Agree {ε α β : Type} (R : α → β → Prop) (x : Timed ε α) (y : Timed ε β) : Prop where
  outcome : Except.Agree R x.outcome y.outcome
  course : x.course = y.course

namespace Timed

variable {ε α β γ δ : Type} {R : α → β → Prop} {S : γ → δ → Prop}

namespace Agree

theorem ofExcept {x : Except ε α} {y : Except ε β} (h : Except.Agree R x y) :
    Agree R (Timed.ofExcept x) (Timed.ofExcept y) :=
  ⟨h, rfl⟩

theorem pure {a : α} {b : β} (h : R a b) :
    Agree R (Pure.pure a : Timed ε α) (Pure.pure b : Timed ε β) :=
  ofExcept (.ok h)

theorem bind {x : Timed ε α} {y : Timed ε β} {f : α → Timed ε γ} {g : β → Timed ε δ}
    (h : Agree R x y) (hf : ∀ a b, R a b → Agree S (f a) (g b)) : Agree S (x >>= f) (y >>= g) := by
  change Agree S (Timed.bind x f) (Timed.bind y g)
  obtain ⟨outcome, course⟩ := x
  obtain ⟨_, _⟩ := y
  obtain ⟨houtcome, rfl⟩ := h
  unfold Timed.bind
  cases houtcome with
  | ok h =>
    obtain ⟨hvalue, hcourse⟩ := hf _ _ h
    exact ⟨hvalue, by dsimp only; rw [hcourse]⟩
  | error e => exact ⟨.error e, rfl⟩

/-- Steps at once that give the same value need not be told apart. -/
theorem bind_eq {x y : Except ε α} {f : α → Timed ε γ} {g : α → Timed ε δ} (h : x = y)
    (hf : ∀ a, Agree S (f a) (g a)) :
    Agree S (Timed.ofExcept x >>= f) (Timed.ofExcept y >>= g) := by
  subst h
  exact (ofExcept (.refl (fun _ => rfl) x)).bind fun a _ hab => hab ▸ hf a

theorem map {x : Timed ε α} {y : Timed ε β} {f : α → γ} {g : β → δ} (h : Agree R x y)
    (hf : ∀ a b, R a b → S (f a) (g b)) : Agree S (f <$> x) (g <$> y) :=
  h.bind fun _ _ hab => .pure (hf _ _ hab)

theorem mapError {x : Timed ε α} {y : Timed ε β} (h : Agree R x y) (f : ε → ε) :
    Agree R (x.mapError f) (y.mapError f) :=
  ⟨h.outcome.mapError f, h.course⟩

theorem eq {x y : Timed ε α} (h : Agree (· = ·) x y) : x = y := by
  obtain ⟨outcome, course⟩ := x
  obtain ⟨_, _⟩ := y
  obtain ⟨houtcome, rfl⟩ := h
  rw [show outcome = _ from houtcome.eq]

end Agree

theorem firstFailure_agree {xs : List (Timed ε α)} {ys : List (Timed ε β)}
    (h : List.Forall₂ (Agree R) xs ys) (place : Nat) :
    firstFailure place xs = firstFailure place ys := by
  induction h generalizing place with
  | nil => rfl
  | @cons x y _ _ hxy _ ih =>
    rw [firstFailure, firstFailure, ih, hxy.course]
    have houtcome := hxy.outcome
    generalize x.outcome = a, y.outcome = b at houtcome ⊢
    cases houtcome with
    | ok _ => rfl
    | error e => cases firstFailure (place + 1) _ <;> rfl

theorem values_agree {xs : List (Timed ε α)} {ys : List (Timed ε β)}
    (h : List.Forall₂ (Agree R) xs ys) : List.Forall₂ R (values xs) (values ys) := by
  induction h with
  | nil => exact .nil
  | @cons x y _ _ hxy _ ih =>
    rw [values, values]
    have houtcome := hxy.outcome
    generalize x.outcome = a, y.outcome = b at houtcome ⊢
    cases houtcome with
    | ok hab => exact .cons hab ih
    | error e => exact .nil

/-- Computations started together agree if each does with its partner: the same one fails first. -/
theorem Agree.all {xs : List (Timed ε α)} {ys : List (Timed ε β)}
    (h : List.Forall₂ (Agree R) xs ys) : Agree (List.Forall₂ R) (all xs) (all ys) := by
  have hcourses : xs.map (·.course) = ys.map (·.course) := by
    induction h with
    | nil => rfl
    | cons hxy _ ih => rw [List.map_cons, List.map_cons, ih, hxy.course]
  unfold Timed.all
  rw [firstFailure_agree h, hcourses]
  split
  · exact ⟨.ok (values_agree h), rfl⟩
  · exact ⟨.error _, rfl⟩

end Timed

/-! ## Values under keys -/

/-- Related values under the same keys stay so where related values are put. -/
theorem Keyed.putBy_related {κ α β : Type} {R : α → β → Prop} {m : Keyed κ α} {m' : Keyed κ β}
    (h : List.Forall₂ (fun e e' => e.1 = e'.1 ∧ R e.2 e'.2) m m') (same : κ → κ → Bool) (key : κ)
    {v : α} {w : β} (hvw : R v w) :
    List.Forall₂ (fun e e' => e.1 = e'.1 ∧ R e.2 e'.2) (m.putBy same key v)
      (m'.putBy same key w) := by
  induction h with
  | nil => exact .cons ⟨rfl, hvw⟩ .nil
  | @cons e e' _ _ he hrest ih =>
    obtain ⟨k, a⟩ := e
    obtain ⟨_, b⟩ := e'
    obtain ⟨rfl, hab⟩ := he
    rw [putBy, putBy]
    split_ifs
    · exact .cons ⟨rfl, hvw⟩ hrest
    · exact .cons ⟨rfl, hab⟩ ih

end ApiTypes

import ApiTypes.Proofs.Agreement

/-!
# Values kept by another run

Of two runs it is shown that where the first has a value the second has a related one. The first may
fail: then nothing is said.

* `Except.Keeps R x y` : if `x` has a value, `y` has one that `R` relates to it;
* `Timed.Keeps R x y` : the same for timed computations, in whatever courses;
* `Keeps.bind`, `Keeps.same`, `Timed.Keeps.all` : what is made in steps, or of computations started
  together, is kept if these are.
-/

namespace ApiTypes

/-! ## Outcomes -/

/-- If the one outcome is a value, the other is a related one. -/
def Except.Keeps {ε α β : Type} (R : α → β → Prop) (x : Except ε α) (y : Except ε β) : Prop :=
  ∀ a, x = .ok a → ∃ b, y = .ok b ∧ R a b

namespace Except.Keeps

variable {ε α β γ δ : Type} {R : α → β → Prop} {S : γ → δ → Prop} {x : Except ε α} {y : Except ε β}

theorem ok {a : α} {b : β} (h : R a b) : Keeps (ε := ε) R (.ok a) (.ok b) := by
  intro c hc
  exact ⟨b, rfl, Except.ok.inj hc ▸ h⟩

theorem error (e : ε) (y : Except ε β) : Keeps R (.error e) y := by
  intro a ha
  cases ha

/-- The second step may rely on the value of the first. -/
theorem bind {k : α → Except ε γ} {k' : β → Except ε δ} (h : Keeps R x y)
    (hk : ∀ a b, x = .ok a → R a b → Keeps S (k a) (k' b)) : Keeps S (x >>= k) (y >>= k') := by
  intro c hc
  obtain ⟨a, ha, hc⟩ := Except.bind_eq_ok.1 hc
  obtain ⟨b, hb, hab⟩ := h a ha
  obtain ⟨d, hd, hcd⟩ := hk a b ha hab c hc
  exact ⟨d, Except.bind_eq_ok.2 ⟨b, hb, hd⟩, hcd⟩

/-- A step that is the same in both runs. -/
theorem same {x' : Except ε α} (h : x' = x) {k : α → Except ε γ} {k' : α → Except ε δ}
    (hk : ∀ a, x = .ok a → Keeps S (k a) (k' a)) : Keeps S (x >>= k) (x' >>= k') := by
  subst h
  refine Keeps.bind (R := (· = ·)) (fun a ha => ⟨a, ha, rfl⟩) fun a b ha hab => ?_
  exact hab ▸ hk a ha

end Except.Keeps

/-! ## Timed computations -/

/-- The same for the outcomes of timed computations. -/
def Timed.Keeps {ε α β : Type} (R : α → β → Prop) (x : Timed ε α) (y : Timed ε β) : Prop :=
  Except.Keeps R x.outcome y.outcome

namespace Timed.Keeps

variable {ε α β γ δ : Type} {R : α → β → Prop} {S : γ → δ → Prop} {x : Timed ε α} {y : Timed ε β}

theorem ofExcept {x : Except ε α} {y : Except ε β} (h : Except.Keeps R x y) :
    Keeps R (Timed.ofExcept x) (Timed.ofExcept y) := h

theorem pure {a : α} {b : β} (h : R a b) : Keeps (ε := ε) R (Pure.pure a) (Pure.pure b) :=
  Except.Keeps.ok h

theorem bind {k : α → Timed ε γ} {k' : β → Timed ε δ} (h : Keeps R x y)
    (hk : ∀ a b, x.outcome = .ok a → R a b → Keeps S (k a) (k' b)) :
    Keeps S (x >>= k) (y >>= k') := by
  intro c hc
  obtain ⟨a, ha, hc⟩ := outcome_bind_ok.1 hc
  obtain ⟨b, hb, hab⟩ := h a ha
  obtain ⟨d, hd, hcd⟩ := hk a b ha hab c hc
  exact ⟨d, outcome_bind_ok.2 ⟨b, hb, hd⟩, hcd⟩

/-- A step at once that is the same in both runs. -/
theorem same {x x' : Except ε α} (h : x' = x) {k : α → Timed ε γ} {k' : α → Timed ε δ}
    (hk : ∀ a, x = .ok a → Keeps S (k a) (k' a)) :
    Keeps S (Timed.ofExcept x >>= k) (Timed.ofExcept x' >>= k') := by
  subst h
  refine Keeps.bind (R := (· = ·)) (fun a ha => ⟨a, ha, rfl⟩) fun a b ha hab => ?_
  exact hab ▸ hk a ha

theorem map {k : α → γ} {k' : β → δ} (h : Keeps R x y) (hk : ∀ a b, R a b → S (k a) (k' b)) :
    Keeps S (k <$> x) (k' <$> y) := by
  intro c hc
  obtain ⟨a, ha, rfl⟩ := outcome_map_ok.1 hc
  obtain ⟨b, hb, hab⟩ := h a ha
  exact ⟨k' b, outcome_map_ok.2 ⟨b, hb, rfl⟩, hk a b hab⟩

/-- Computations started together are kept one by one. -/
theorem all {xs : List (Timed ε α)} {ys : List (Timed ε β)}
    (h : List.Forall₂ (Keeps R) xs ys) :
    Keeps (List.Forall₂ R) (Timed.all xs) (Timed.all ys) := by
  intro as has
  simp only [outcome_all_ok] at has ⊢
  induction h generalizing as with
  | nil =>
    cases has
    exact ⟨[], .nil, .nil⟩
  | cons hxy _ ih =>
    cases has with
    | cons ha has =>
      obtain ⟨b, hb, hab⟩ := hxy _ ha
      obtain ⟨bs, hbs, habs⟩ := ih _ has
      exact ⟨b :: bs, .cons hb hbs, .cons hab habs⟩

/-- A third run that agrees with the second keeps what the second does. -/
theorem trans_agree {z : Timed ε γ} {S : β → γ → Prop} {T : α → γ → Prop} (h : Keeps R x y)
    (h' : Timed.Agree S y z) (hT : ∀ {a b c}, R a b → S b c → T a c) : Keeps T x z := by
  intro a ha
  obtain ⟨b, hb, hab⟩ := h a ha
  have houtcome := h'.outcome
  rw [hb] at houtcome
  generalize z.outcome = c at houtcome ⊢
  cases houtcome with
  | ok hbc => exact ⟨_, rfl, hT hab hbc⟩

end Timed.Keeps

end ApiTypes

import ApiTypes.Proofs.Outcome

/-!
# Values carried from one run to another

Of two runs that take the same steps in different surroundings it is shown that the second has the
value of the first, as it looks in its own surroundings. The first may fail: then nothing is said.

* `Except.Carries f x y` : if `x` has a value, `y` has what `f` makes of it;
* `Timed.Carries f x y` : the same for timed computations, in whatever courses;
* `Carries.bind`, `Carries.same`, `Timed.Carries.all` : what is made in steps, or of computations
  started together, is carried if these are.
-/

namespace ApiTypes

/-! ## Outcomes -/

/-- If the one outcome is a value, the other is what a function makes of it. -/
def Except.Carries {ε α β : Type} (f : α → β) (x : Except ε α) (y : Except ε β) : Prop :=
  ∀ a, x = .ok a → y = .ok (f a)

namespace Except.Carries

variable {ε α β γ δ : Type} {f : α → β} {g : γ → δ} {x : Except ε α} {y : Except ε β}

theorem ok (a : α) : Carries (ε := ε) f (.ok a) (.ok (f a)) := by
  intro b hb
  rw [Except.ok.inj hb]

theorem error (e : ε) (y : Except ε β) : Carries f (.error e) y := by
  intro a ha
  cases ha

theorem refl (x : Except ε α) : Carries id x x := fun _ h => h

/-- The second step may rely on the value of the first. -/
theorem bind {k : α → Except ε γ} {k' : β → Except ε δ} (h : Carries f x y)
    (hk : ∀ a, x = .ok a → Carries g (k a) (k' (f a))) : Carries g (x >>= k) (y >>= k') := by
  intro c hc
  obtain ⟨a, ha, hc⟩ := Except.bind_eq_ok.1 hc
  exact Except.bind_eq_ok.2 ⟨f a, h a ha, hk a ha c hc⟩

/-- A step that is the same in both runs. -/
theorem same {k : α → Except ε γ} {k' : α → Except ε δ}
    (hk : ∀ a, x = .ok a → Carries g (k a) (k' a)) : Carries g (x >>= k) (x >>= k') :=
  (refl x).bind hk

theorem mapM {k : α → Except ε γ} {k' : β → Except ε δ} {as : List α}
    (h : ∀ a ∈ as, Carries g (k a) (k' (f a))) :
    Carries (List.map g) (as.mapM k) ((as.map f).mapM k') := by
  induction as with
  | nil => exact .ok []
  | cons a rest ih =>
    rw [List.forall_mem_cons] at h
    rw [List.map_cons, List.mapM_cons, List.mapM_cons]
    exact h.1.bind fun c _ => (ih h.2).bind fun cs _ => .ok (c :: cs)

end Except.Carries

/-! ## Timed computations -/

/-- The same for the outcomes of timed computations. -/
def Timed.Carries {ε α β : Type} (f : α → β) (x : Timed ε α) (y : Timed ε β) : Prop :=
  Except.Carries f x.outcome y.outcome

namespace Timed.Carries

variable {ε α β γ δ : Type} {f : α → β} {g : γ → δ} {x : Timed ε α} {y : Timed ε β}

theorem ofExcept {x : Except ε α} {y : Except ε β} (h : Except.Carries f x y) :
    Carries f (Timed.ofExcept x) (Timed.ofExcept y) := h

theorem pure (a : α) : Carries (ε := ε) f (Pure.pure a) (Pure.pure (f a)) :=
  Except.Carries.ok a

theorem bind {k : α → Timed ε γ} {k' : β → Timed ε δ} (h : Carries f x y)
    (hk : ∀ a, x.outcome = .ok a → Carries g (k a) (k' (f a))) :
    Carries g (x >>= k) (y >>= k') := by
  intro c hc
  obtain ⟨a, ha, hc⟩ := outcome_bind_ok.1 hc
  exact outcome_bind_ok.2 ⟨f a, h a ha, hk a ha c hc⟩

/-- A step at once that is the same in both runs. -/
theorem same {x : Except ε α} {k : α → Timed ε γ} {k' : α → Timed ε δ}
    (hk : ∀ a, x = .ok a → Carries g (k a) (k' a)) :
    Carries g (Timed.ofExcept x >>= k) (Timed.ofExcept x >>= k') :=
  Carries.bind (f := id) (fun _ h => h) hk

theorem map {k : α → γ} {k' : β → δ} (h : Carries f x y) (hk : ∀ a, k' (f a) = g (k a)) :
    Carries g (k <$> x) (k' <$> y) := by
  intro c hc
  obtain ⟨a, ha, rfl⟩ := outcome_map_ok.1 hc
  exact outcome_map_ok.2 ⟨f a, h a ha, hk a⟩

theorem mapError (h : Carries f x y) (e e' : ε → ε) : Carries f (x.mapError e) (y.mapError e') := by
  intro a ha
  exact outcome_mapError_ok.2 (h a (outcome_mapError_ok.1 ha))

/-- Computations started together are carried one by one. -/
theorem all {xs : List (Timed ε α)} {ys : List (Timed ε β)}
    (h : List.Forall₂ (Carries f) xs ys) : Carries (List.map f) (Timed.all xs) (Timed.all ys) := by
  intro as has
  rw [outcome_all_ok] at has ⊢
  induction h generalizing as with
  | nil =>
    cases has
    exact .nil
  | cons hxy _ ih =>
    cases has with
    | cons ha has => exact .cons (hxy _ ha) (ih _ has)

end Timed.Carries
end ApiTypes

import ApiTypes.Proofs.Names
import Mathlib.Data.List.Induction

/-!
# Scopes

* `DeclaredIn ds imports` : the imports that are declared beside what needs them name some of the
  declarations `ds`;
* `ScopeClosed ds` : so do the imports of each of `ds`, and each imports the names that it uses;
* `Gathers ds ms` : `ms` says what `ds` says, put together name by name (`ScopeClosed.gathers`);
  `Declaration.merge` and `firstOfName` both do.
-/

namespace ApiTypes

/-! ## Declarations that stand together -/

/-- The imports that are declared beside what needs them name some of the declarations. -/
def DeclaredIn (ds : List Declaration) (imports : List Import) : Prop :=
  ∀ i ∈ imports, i.document = none → ∃ d ∈ ds, d.name = i.name

/-- The names are imported. -/
def Imported (imports : List Import) (names : List String) : Prop :=
  ∀ n ∈ names, ∃ i ∈ imports, i.name = n

/-- Declarations that find among themselves what they import from beside them, and import what they
use. -/
structure ScopeClosed (ds : List Declaration) : Prop where
  declared : ∀ d ∈ ds, DeclaredIn ds d.imports
  imported : ∀ d ∈ ds, ∀ n ∈ d.model.names, n = d.name ∨ ∃ i ∈ d.imports, i.name = n

theorem DeclaredIn.mono {ds es : List Declaration} {imports : List Import}
    (h : DeclaredIn ds imports) (hsub : ds ⊆ es) : DeclaredIn es imports := by
  intro i hi hhere
  obtain ⟨d, hd, hname⟩ := h i hi hhere
  exact ⟨d, hsub hd, hname⟩

theorem Imported.mono {imports more : List Import} {names : List String}
    (h : Imported imports names) (hsub : imports ⊆ more) : Imported more names := by
  intro n hn
  obtain ⟨i, hi, hname⟩ := h n hn
  exact ⟨i, hsub hi, hname⟩

theorem declaredIn_nil (ds : List Declaration) : DeclaredIn ds [] := by
  intro i hi
  cases hi

/-- What another document declares is not looked for here. -/
theorem declaredIn_elsewhere (ds : List Declaration) (name document : String) :
    DeclaredIn ds [⟨name, some document⟩] := by
  intro i hi hhere
  obtain rfl := List.mem_singleton.1 hi
  cases hhere

theorem ScopeClosed.nil : ScopeClosed [] :=
  ⟨fun _ hd => absurd hd List.not_mem_nil, fun _ hd => absurd hd List.not_mem_nil⟩

theorem ScopeClosed.append {ds es : List Declaration} (hd : ScopeClosed ds) (he : ScopeClosed es) :
    ScopeClosed (ds ++ es) where
  declared d hmem := by
    rcases List.mem_append.1 hmem with h | h
    · exact (hd.declared d h).mono (List.subset_append_left _ _)
    · exact (he.declared d h).mono (List.subset_append_right _ _)
  imported d hmem := by
    rcases List.mem_append.1 hmem with h | h
    · exact hd.imported d h
    · exact he.imported d h

/-- A declaration whose imports are found may be added. -/
theorem ScopeClosed.concat {ds : List Declaration} {d : Declaration} (hds : ScopeClosed ds)
    (hdeclared : DeclaredIn ds d.imports)
    (himported : ∀ n ∈ d.model.names, n = d.name ∨ ∃ i ∈ d.imports, i.name = n) :
    ScopeClosed (ds ++ [d]) where
  declared e hmem := by
    rcases List.mem_append.1 hmem with h | h
    · exact (hds.declared e h).mono (List.subset_append_left _ _)
    · obtain rfl := List.mem_singleton.1 h
      exact hdeclared.mono (List.subset_append_left _ _)
  imported e hmem := by
    rcases List.mem_append.1 hmem with h | h
    · exact hds.imported e h
    · obtain rfl := List.mem_singleton.1 h
      exact himported

/-! ## Declarations put together by name -/

/-- Declarations that say what others say: under the same names, with imports of theirs only, and
where one uses a name, one of its name among the others does and has its imports kept. -/
structure Gathers (ds ms : List Declaration) : Prop where
  names : ∀ x, (∃ m ∈ ms, m.name = x) ↔ ∃ d ∈ ds, d.name = x
  imports : ∀ m ∈ ms, ∀ i ∈ m.imports, ∃ d ∈ ds, i ∈ d.imports
  uses : ∀ m ∈ ms, ∀ n ∈ m.model.names,
    ∃ d ∈ ds, d.name = m.name ∧ n ∈ d.model.names ∧ d.imports ⊆ m.imports

theorem ScopeClosed.gathers {ds ms : List Declaration} (hds : ScopeClosed ds)
    (h : Gathers ds ms) : ScopeClosed ms where
  declared m hm i hi hhere := by
    obtain ⟨d, hd, hid⟩ := h.imports m hm i hi
    exact (h.names i.name).2 (hds.declared d hd i hid hhere)
  imported m hm n hn := by
    obtain ⟨d, hd, hname, hnd, hsub⟩ := h.uses m hm n hn
    rcases hds.imported d hd n hnd with rfl | ⟨i, hi, hin⟩
    · exact Or.inl hname
    · exact Or.inr ⟨i, hsub hi, hin⟩

theorem DeclaredIn.gathers {ds ms : List Declaration} {imports : List Import}
    (hds : DeclaredIn ds imports) (h : Gathers ds ms) : DeclaredIn ms imports :=
  fun i hi hhere => (h.names i.name).2 (hds i hi hhere)

namespace Declaration

/-- What is among declarations after one is added: one from before, one joined with the new one, or
the new one. -/
theorem mem_insert {ms : List Declaration} {e m : Declaration} (h : m ∈ insert ms e) :
    m ∈ ms ∨ (∃ d ∈ ms, d.name = e.name ∧ m = d.join e) ∨ m = e := by
  induction ms with
  | nil =>
    rw [insert] at h
    exact Or.inr (Or.inr (List.mem_singleton.1 h))
  | cons d rest ih =>
    rw [insert] at h
    split at h
    · rename_i hname
      rcases List.mem_cons.1 h with rfl | h
      · exact Or.inr (Or.inl ⟨d, List.mem_cons_self .., hname, rfl⟩)
      · exact Or.inl (List.mem_cons_of_mem _ h)
    · rcases List.mem_cons.1 h with rfl | h
      · exact Or.inl (List.mem_cons_self ..)
      · rcases ih h with h | ⟨c, hc, hname, hm⟩ | h
        · exact Or.inl (List.mem_cons_of_mem _ h)
        · exact Or.inr (Or.inl ⟨c, List.mem_cons_of_mem _ hc, hname, hm⟩)
        · exact Or.inr (Or.inr h)

theorem map_name_insert (ms : List Declaration) (e : Declaration) :
    (insert ms e).map (·.name) =
      if e.name ∈ ms.map (·.name) then ms.map (·.name) else ms.map (·.name) ++ [e.name] := by
  induction ms with
  | nil => simp [insert]
  | cons d rest ih =>
    rw [insert]
    by_cases hname : d.name = e.name
    · simp [hname, join]
    · by_cases hmem : e.name ∈ rest.map (·.name)
      · simp [hname, ih, hmem]
      · simp [hname, ih, hmem, Ne.symm hname]

/-- Adding a declaration keeps what is said, and says what the new one says. -/
theorem gathers_insert {ds ms : List Declaration} (h : Gathers ds ms) (e : Declaration) :
    Gathers (ds ++ [e]) (insert ms e) where
  names x := by
    have hiff := h.names x
    have hmap : (∃ m ∈ insert ms e, m.name = x) ↔ x ∈ (insert ms e).map (·.name) := by simp
    have hms : (∃ m ∈ ms, m.name = x) ↔ x ∈ ms.map (·.name) := by simp
    rw [hmap, map_name_insert]
    rw [hms] at hiff
    by_cases hmem : e.name ∈ ms.map (·.name)
    · rw [if_pos hmem, hiff]
      constructor
      · rintro ⟨d, hd, rfl⟩
        exact ⟨d, List.mem_append_left _ hd, rfl⟩
      · rintro ⟨d, hd, rfl⟩
        rcases List.mem_append.1 hd with hd | hd
        · exact ⟨d, hd, rfl⟩
        · obtain rfl := List.mem_singleton.1 hd
          exact hiff.1 hmem
    · rw [if_neg hmem, List.mem_append, hiff]
      simp only [List.mem_append, List.mem_singleton, or_and_right, exists_or, exists_eq_left]
      exact or_congr_right eq_comm
  imports m hm i hi := by
    rcases mem_insert hm with hm | ⟨d, hd, -, rfl⟩ | rfl
    · obtain ⟨c, hc, hic⟩ := h.imports m hm i hi
      exact ⟨c, List.mem_append_left _ hc, hic⟩
    · rcases List.mem_append.1 hi with hi | hi
      · obtain ⟨c, hc, hic⟩ := h.imports d hd i hi
        exact ⟨c, List.mem_append_left _ hc, hic⟩
      · exact ⟨e, List.mem_append_right _ (List.mem_singleton_self _), hi⟩
    · exact ⟨m, List.mem_append_right _ (List.mem_singleton_self _), hi⟩
  uses m hm n hn := by
    rcases mem_insert hm with hm | ⟨d, hd, hname, rfl⟩ | rfl
    · obtain ⟨c, hc, hcname, hnc, hsub⟩ := h.uses m hm n hn
      exact ⟨c, List.mem_append_left _ hc, hcname, hnc, hsub⟩
    · rcases List.mem_append.1 hn with hn | hn
      · obtain ⟨c, hc, hcname, hnc, hsub⟩ := h.uses d hd n hn
        exact ⟨c, List.mem_append_left _ hc, hcname, hnc,
          fun i hi => List.mem_append_left _ (hsub hi)⟩
      · exact ⟨e, List.mem_append_right _ (List.mem_singleton_self _), hname.symm, hn,
          List.subset_append_right _ _⟩
    · exact ⟨m, List.mem_append_right _ (List.mem_singleton_self _), rfl, hn, fun _ hi => hi⟩

theorem gathers_merge (ds : List Declaration) : Gathers ds (merge ds) := by
  induction ds using List.reverseRecOn with
  | nil => exact ⟨fun x => by simp [merge], by simp [merge], by simp [merge]⟩
  | append_singleton ds e ih =>
    rw [merge, List.foldl_append]
    exact gathers_insert ih e

end Declaration

/-! ## The first declarations of each name -/

theorem firstOfName_subset {α : Type} (name : α → String) (as : List α) :
    firstOfName name as ⊆ as := by
  induction as with
  | nil => exact fun _ h => h
  | cons a rest ih =>
    intro b hb
    rw [firstOfName] at hb
    rcases List.mem_cons.1 hb with rfl | hb
    · exact List.mem_cons_self ..
    · exact List.mem_cons_of_mem _ (ih (List.mem_filter.1 hb).1)

/-- Each name stays. -/
theorem exists_firstOfName {α : Type} (name : α → String) {as : List α} {a : α} (h : a ∈ as) :
    ∃ b ∈ firstOfName name as, name b = name a := by
  induction as with
  | nil => cases h
  | cons c rest ih =>
    rw [firstOfName]
    by_cases hname : name c = name a
    · exact ⟨c, List.mem_cons_self .., hname⟩
    · rcases List.mem_cons.1 h with rfl | h
      · exact absurd rfl hname
      · obtain ⟨b, hb, hba⟩ := ih h
        refine ⟨b, List.mem_cons_of_mem _ (List.mem_filter.2 ⟨hb, ?_⟩), hba⟩
        simpa [hba] using Ne.symm hname

theorem gathers_firstOfName (ds : List Declaration) : Gathers ds (firstOfName (·.name) ds) where
  names x := by
    constructor
    · rintro ⟨d, hd, rfl⟩
      exact ⟨d, firstOfName_subset _ _ hd, rfl⟩
    · rintro ⟨d, hd, rfl⟩
      exact exists_firstOfName _ hd
  imports d hd i hi := ⟨d, firstOfName_subset _ _ hd, hi⟩
  uses d hd n hn := ⟨d, firstOfName_subset _ _ hd, rfl, hn, fun _ hi => hi⟩

end ApiTypes

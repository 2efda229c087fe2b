import ApiTypes.Components
import ApiTypes.Proofs.Failures
import ApiTypes.Proofs.Reordering
import Mathlib.Data.List.Sort

/-!
# Rows in another order

* `mergeSort_eq_of_perm`, `forall₂_mergeSort` : sorting forgets the order, and keeps what is related
  side by side;
* `Form.sorted_alike` : so the sorted members of reordered mappings stand side by side;
* `Form.RowsAlike` : the rows of reordered values, related item by item, or the same texts in
  another order;
* `Form.sortedRow_reordered` : the sorted rows of reordered values are the same;
* `mapM_perm` : what has only one failure fails or succeeds on a row in any order.
-/

namespace ApiTypes

/-! ## Sorting -/

theorem mergeSort_eq_of_perm {α : Type} {le : α → α → Bool} {as bs : List α}
    (htrans : ∀ a b c, le a b = true → le b c = true → le a c = true)
    (htotal : ∀ a b, (le a b || le b a) = true)
    (hanti : ∀ a ∈ as, ∀ b ∈ as, le a b = true → le b a = true → a = b) (h : as.Perm bs) :
    as.mergeSort le = bs.mergeSort le := by
  refine List.Perm.eq_of_pairwise (fun a b ha hb => ?_) (List.pairwise_mergeSort htrans htotal as)
    (List.pairwise_mergeSort htrans htotal bs)
    ((List.mergeSort_perm as le).trans (h.trans (List.mergeSort_perm bs le).symm))
  exact hanti a (List.mem_mergeSort.1 ha) b (h.mem_iff.2 (List.mem_mergeSort.1 hb))

/-- Rows side by side that are sorted alike stand side by side again. -/
theorem forall₂_mergeSort {α β : Type} {R : α → β → Prop} {le : α → α → Bool} {le' : β → β → Bool}
    {as : List α} {bs : List β} (h : List.Forall₂ R as bs)
    (hle : ∀ a b a' b', R a b → R a' b' → le a a' = le' b b') :
    List.Forall₂ R (as.mergeSort le) (bs.mergeSort le') := by
  have hpairs : ∀ p ∈ as.zip bs, R p.1 p.2 := fun p hp => List.forall₂_zip h hp
  have hfst : (as.zip bs).map Prod.fst = as := List.map_fst_zip h.length_eq.le
  have hsnd : (as.zip bs).map Prod.snd = bs := List.map_snd_zip h.length_eq.ge
  have hleft : ((as.zip bs).mergeSort fun p q => le p.1 q.1).map Prod.fst = as.mergeSort le := by
    rw [List.map_mergeSort (s := le) fun _ _ _ _ => rfl, hfst]
  have hright : ((as.zip bs).mergeSort fun p q => le p.1 q.1).map Prod.snd = bs.mergeSort le' := by
    rw [List.map_mergeSort (s := le') fun p hp q hq => hle _ _ _ _ (hpairs p hp) (hpairs q hq), hsnd]
  rw [← hleft, ← hright, List.forall₂_map_left_iff, List.forall₂_map_right_iff, List.forall₂_same]
  exact fun p hp => hpairs p (List.mem_mergeSort.1 hp)

/-- The text that a key is. -/
def Atom.textOf (a : Atom) : String := a.text?.getD ""

theorem Atom.eq_text {a : Atom} (h : a.text?.isSome = true) : a = .text a.textOf := by
  cases a with
  | text s => rfl
  | _ => cases h

namespace Form

theorem compareKeys?_text {a b : Atom} (ha : a.text?.isSome = true) (hb : b.text?.isSome = true) :
    compareKeys? a b = some (compare a.textOf b.textOf) := by
  rw [Atom.eq_text ha, Atom.eq_text hb]
  rfl

theorem areComparable_text {as : List Atom} (h : ∀ a ∈ as, a.text?.isSome = true) :
    areComparable as = true := by
  induction as with
  | nil => rfl
  | cons a rest ih =>
    rw [List.forall_mem_cons] at h
    rw [areComparable, ih h.2, Bool.and_true, List.all_eq_true]
    intro b hb
    rw [compareKeys?_text h.1 (h.2 b hb)]
    rfl

/-- What is in order stays as it is. -/
theorem sorted_of_pairwise {α : Type} {keyOf : α → Atom} {as : List α}
    (hcomparable : areComparable (as.map keyOf) = true)
    (h : as.Pairwise fun a b => compareKeys? (keyOf a) (keyOf b) != some .gt) :
    sorted keyOf as = .ok as := by
  rw [sorted, if_pos hcomparable, List.mergeSort_of_pairwise h]

/-- Sorting by texts. -/
theorem sorted_text {α : Type} {keyOf : α → Atom} {as : List α}
    (htext : ∀ a ∈ as, (keyOf a).text?.isSome = true) :
    sorted keyOf as =
      .ok (as.mergeSort fun a b => (compare (keyOf a).textOf (keyOf b).textOf).isLE) := by
  unfold sorted
  rw [if_pos (areComparable_text (by simpa using htext))]
  have hsame := List.map_mergeSort (f := id) (l := as)
    (r := fun a b => compareKeys? (keyOf a) (keyOf b) != some .gt)
    (s := fun a b => (compare (keyOf a).textOf (keyOf b).textOf).isLE) fun a ha b hb => by
      rw [compareKeys?_text (htext a ha) (htext b hb), id, id]
      cases compare (keyOf a).textOf (keyOf b).textOf <;> rfl
  rw [List.map_id, List.map_id] at hsame
  rw [hsame]

/-- Elements that are told apart by texts are sorted in one way. -/
theorem sorted_perm {α : Type} {keyOf : α → Atom} {as bs : List α}
    (htext : ∀ a ∈ as, (keyOf a).text?.isSome = true)
    (hinj : ∀ a ∈ as, ∀ b ∈ as, keyOf a = keyOf b → a = b) (h : as.Perm bs) :
    sorted keyOf as = sorted keyOf bs := by
  rw [sorted_text htext, sorted_text fun b hb => htext b (h.mem_iff.2 hb)]
  refine congrArg _ (mergeSort_eq_of_perm (fun a b c => ?_) (fun a b => ?_)
    (fun a ha b hb hab hba => ?_) h)
  · exact Std.TransCmp.isLE_trans
  · have hswap : compare (keyOf a).textOf (keyOf b).textOf =
        (compare (keyOf b).textOf (keyOf a).textOf).swap := Std.OrientedCmp.eq_swap
    rw [hswap]
    cases compare (keyOf b).textOf (keyOf a).textOf <;> rfl
  · refine hinj a ha b hb ?_
    rw [Atom.eq_text (htext a ha), Atom.eq_text (htext b hb),
      Std.LawfulEqCmp.eq_of_compare (Std.OrientedCmp.isLE_antisymm hab hba)]

/-- The members of reordered mappings stand side by side when they are sorted. -/
theorem sorted_alike {role : Role} {ms ms' : Members} (h : Members.Alike role ms ms') :
    Except.Agree (List.Forall₂ (SameMember role)) (sorted Prod.fst ms) (sorted Prod.fst ms') := by
  rcases h with rfl | ⟨ms₁, hmembers, hperm, htext, hnodup, -⟩
  · exact .refl (fun as => List.forall₂_same.2 fun m _ => ⟨rfl, .same _ m.2⟩) _
  · have hkeys := Members.keys_of_forall₂ hmembers
    have htext₁ := htext
    rw [hkeys] at htext₁ hnodup
    simp only [List.forall_mem_map] at htext htext₁
    rw [← sorted_perm htext₁ (fun a ha b hb => List.inj_on_of_nodup_map hnodup ha hb) hperm,
      sorted_text htext, sorted_text htext₁]
    refine .ok (forall₂_mergeSort hmembers fun a b a' b' hab hab' => ?_)
    rw [hab.1, hab'.1]

/-! ## Rows -/

/-- Rows whose elements are related one by one, or which hold the same texts. -/
def RowsAlike (vs ws : List Value) : Prop :=
  List.Forall₂ (Value.Reordered .free) vs ws ∨
    vs.Perm ws ∧ ∀ v ∈ vs, ∃ s, v = .text s

theorem RowsAlike.refl (vs : List Value) : RowsAlike vs vs :=
  .inl (List.forall₂_same.2 fun v _ => .same _ v)

section
variable {role : Role} {v w : Value}

theorem row_reordered (h : Value.Reordered role v w) : Except.Agree RowsAlike (row v) (row w) := by
  cases h.sides with
  | atom a => exact .refl RowsAlike.refl _
  | list hitems _ => exact .ok (.inl hitems)
  | @map ms ms' hms =>
    rcases hms with rfl | ⟨ms₁, hmembers, hperm, htext, -⟩
    · exact .refl RowsAlike.refl _
    · have hkeys : (ms.map Prod.fst).Perm (ms'.map Prod.fst) :=
        Members.keys_of_forall₂ hmembers ▸ hperm.map Prod.fst
      refine .ok (.inr ⟨by simpa [Function.comp_def] using hkeys.map Value.atom, fun v hv => ?_⟩)
      obtain ⟨m, hm, rfl⟩ := List.mem_map.1 hv
      exact ⟨_, congrArg _ (Atom.eq_text (htext m.1 (List.mem_map_of_mem hm)))⟩

theorem optionalRow_reordered {a b : Option Value} (h : Option.Rel (Value.Reordered role) a b) :
    Except.Agree RowsAlike (optionalRow a) (optionalRow b) :=
  row_reordered (Value.orEmpty_reordered h)

theorem canCompare_reordered {role' : Role} {v' w' : Value} (h : Value.Reordered role v w)
    (h' : Value.Reordered role' v' w') : canCompare v v' = canCompare w w' := by
  cases h.sides <;> cases h'.sides <;> rfl

theorem canCompareAll_reordered {vs ws : List Value}
    (h : List.Forall₂ (Value.Reordered .free) vs ws) : canCompareAll vs = canCompareAll ws := by
  induction h with
  | nil => rfl
  | @cons v w rest rest' hv hrest ih =>
    have hall : rest.all (canCompare v) = rest'.all (canCompare w) := by
      clear ih
      induction hrest with
      | nil => rfl
      | cons hv' _ ih => rw [List.all_cons, List.all_cons, canCompare_reordered hv hv', ih]
    rw [canCompareAll, canCompareAll, hall, ih]

theorem canCompareAll_text {vs : List Value} (h : ∀ v ∈ vs, ∃ s, v = .text s) :
    canCompareAll vs = true := by
  induction vs with
  | nil => rfl
  | cons v rest ih =>
    rw [List.forall_mem_cons] at h
    obtain ⟨⟨s, rfl⟩, hrest⟩ := h
    rw [canCompareAll, ih hrest, Bool.and_true, List.all_eq_true]
    intro w hw
    obtain ⟨t, rfl⟩ := hrest w hw
    rfl

/-- The atom that a value is. -/
def atomOf? : Value → Option Atom
  | .atom a => some a
  | _ => none

theorem atoms_reordered {vs ws : List Value} (h : List.Forall₂ (Value.Reordered .free) vs ws) :
    vs.filterMap atomOf? = ws.filterMap atomOf? := by
  induction h with
  | nil => rfl
  | cons hv _ ih =>
    cases hv.sides <;> simpa [List.filterMap_cons, atomOf?] using ih

/-- The atoms of a row in order are the same for reordered values. -/
theorem sortedRow_reordered (h : Value.Reordered role v w) : sortedRow v = sortedRow w := by
  have hrow : ∀ v, sortedRow v = row v >>= fun values =>
      if canCompareAll values then sorted id (values.filterMap atomOf?) else fail .notComparable :=
    fun _ => rfl
  rw [hrow, hrow]
  refine ((row_reordered h).bind fun vs ws hvw => ?_).eq
  rcases hvw with hvw | ⟨hperm, htext⟩
  · rw [canCompareAll_reordered hvw, atoms_reordered hvw]
    exact .refl (fun _ => rfl) _
  · have hatoms : ∀ a ∈ vs.filterMap atomOf?, (id a).text?.isSome = true := by
      intro a ha
      obtain ⟨v, hv, ha⟩ := List.mem_filterMap.1 ha
      obtain ⟨s, rfl⟩ := htext v hv
      obtain rfl := Option.some.inj ha
      rfl
    rw [canCompareAll_text htext, canCompareAll_text fun v hv => htext v (hperm.mem_iff.2 hv),
      if_pos rfl, if_pos rfl, sorted_perm hatoms (fun _ _ _ _ h => h) (hperm.filterMap atomOf?)]
    exact .refl (fun _ => rfl) _

end

/-! ## Names made of rows -/

theorem filter_reordered {vs ws : List Value} (h : RowsAlike vs ws) :
    List.Forall₂ (Value.Reordered .free) (vs.filter (·.members?.isSome))
      (ws.filter (·.members?.isSome)) := by
  rcases h with h | ⟨hperm, htext⟩
  · induction h with
    | nil => exact .nil
    | cons hv _ ih =>
      cases hv.sides with
      | atom => exact ih
      | list => exact ih
      | map => exact .cons hv ih
  · have hnone : ∀ us : List Value, (∀ v ∈ us, ∃ s, v = .text s) →
        us.filter (·.members?.isSome) = [] := by
      intro us hus
      refine List.filter_eq_nil_iff.2 fun v hv => ?_
      obtain ⟨s, rfl⟩ := hus v hv
      simp [Value.members?]
    rw [hnone vs htext, hnone ws fun v hv => htext v (hperm.mem_iff.2 hv)]
    exact .nil

section
variable {ε α β : Type} {f : α → Except ε β} {e : ε} {as bs : List α}

theorem mapM_ok (h : ∀ a ∈ as, ∃ b, f a = .ok b) :
    as.mapM f = .ok (as.filterMap fun a => (f a).toOption) := by
  induction as with
  | nil => rfl
  | cons a rest ih =>
    rw [List.forall_mem_cons] at h
    obtain ⟨⟨b, hb⟩, hrest⟩ := h
    rw [List.mapM_cons, ih hrest, List.filterMap_cons, hb]
    rfl

theorem mapM_error (hfails : ∀ a ∈ as, FailsOnly (· = e) (f a))
    (h : ∃ a ∈ as, ∃ e', f a = .error e') : as.mapM f = .error e := by
  cases hrun : as.mapM f with
  | error e' => rw [FailsOnly.mapM hfails e' hrun]
  | ok bs =>
    obtain ⟨a, ha, e', he'⟩ := h
    obtain ⟨b, -, hb⟩ := exists_right_of_forall₂ (Except.mapM_eq_ok hrun) ha
    rw [he'] at hb
    cases hb

/-- What has only one failure fails or succeeds on a row in any order. -/
theorem mapM_perm (hfails : ∀ a ∈ as, FailsOnly (· = e) (f a)) (h : as.Perm bs) :
    Except.Agree List.Perm (as.mapM f) (bs.mapM f) := by
  by_cases hok : ∀ a ∈ as, ∃ b, f a = .ok b
  · rw [mapM_ok hok, mapM_ok fun b hb => hok b (h.mem_iff.2 hb)]
    exact .ok (h.filterMap _)
  · have herror : ∃ a ∈ as, ∃ e', f a = .error e' := by
      push Not at hok
      obtain ⟨a, ha, hnone⟩ := hok
      cases hfa : f a with
      | error e' => exact ⟨a, ha, e', hfa⟩
      | ok b => exact absurd hfa (hnone b)
    obtain ⟨a, ha, herror'⟩ := herror
    rw [mapM_error hfails ⟨a, ha, herror'⟩,
      mapM_error (fun b hb => hfails b (h.mem_iff.2 hb)) ⟨a, h.mem_iff.1 ha, herror'⟩]
    exact .error e

end

theorem mapM_forall₂ {α β ε : Type} {R : α → α → Prop} {f g : α → Except ε β} {as bs : List α}
    (h : List.Forall₂ R as bs) (hf : ∀ a b, R a b → f a = g b) : as.mapM f = bs.mapM g := by
  induction h with
  | nil => rfl
  | cons hab _ ih => rw [List.mapM_cons, List.mapM_cons, hf _ _ hab, ih]

/-! What makes a name of a value has one failure: the value is no text. -/

theorem suffixed_notText (name : String) (suffix : Value) :
    FailsOnly (· = .defect .notText) (suffixed name suffix) := by
  refine FailsOnly.bind (x := text suffix) ?_ fun _ _ => failsOnly_ok _
  unfold text
  split
  · exact failsOnly_ok _
  · exact failsOnly_error rfl

theorem pascal_notText (v : Value) : FailsOnly (· = .defect .notText) (pascal v) := by
  unfold pascal
  split
  · exact failsOnly_ok _
  · split_ifs
    · exact failsOnly_error rfl
    · exact failsOnly_ok _

/-- Names made of the elements of rows. -/
theorem mapM_rowsAlike {f : Value → Except Fault String} {vs ws : List Value}
    (hf : ∀ v w, Value.Reordered .free v w → f v = f w)
    (hfails : ∀ v, FailsOnly (· = .defect .notText) (f v)) (h : RowsAlike vs ws) :
    Except.Agree List.Perm (vs.mapM f) (ws.mapM f) := by
  rcases h with h | ⟨hperm, -⟩
  · rw [mapM_forall₂ h hf]
    exact .refl .refl _
  · exact mapM_perm (fun v _ => hfails v) hperm

end Form
end ApiTypes

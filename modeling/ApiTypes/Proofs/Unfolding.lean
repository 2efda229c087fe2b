import ApiTypes.Proofs.ReadBack
import Mathlib.Logic.Function.Iterate

/-!
# Declared names replaced

* `Model.body?`, `Declaration.bodyOf?` : the type that is declared under a name;
* `Written.replace ds` : what a text says with the declared names of `ds` replaced by what the texts
  of their types say, all at once;
* `Written.Same.iterate_replace` : types that are one stay so;
* `Written.Unfolds` : a type that is another one once declared names are replaced.
-/

namespace ApiTypes

/-- The type that a model declares. -/
def Model.body? : Model → Option TypeExpr
  | interface _ _ t | synonym _ _ t => some t
  | empty _ _ | enum _ _ _ | mergedEnum _ _ | both _ _ => none

/-- The type that is declared under a name. -/
def Declaration.bodyOf? (ds : List Declaration) (n : String) : Option TypeExpr :=
  (ds.find? (·.name = n)).bind (·.model.body?)

/-- Where names are distinct, a name stands for the type of its declaration. -/
theorem Declaration.bodyOf?_of_mem {ds : List Declaration} (h : (ds.map (·.name)).Nodup)
    {d : Declaration} (hd : d ∈ ds) : bodyOf? ds d.name = d.model.body? := by
  have hfind : ds.find? (·.name = d.name) = some d := by
    induction ds with
    | nil => cases hd
    | cons e rest ih =>
      rw [List.map_cons, List.nodup_cons] at h
      rcases List.mem_cons.1 hd with rfl | hd
      · simp
      · have hne : e.name ≠ d.name := fun he => h.1 (he ▸ List.mem_map_of_mem hd)
        rw [List.find?_cons_of_neg (by simpa using hne)]
        exact ih h.2 hd
  rw [bodyOf?, hfind, Option.bind_some]

theorem Declaration.bodyOf?_eq_none {ds : List Declaration} {n : String}
    (h : ∀ d ∈ ds, d.name ≠ n) : bodyOf? ds n = none := by
  have hfind : ds.find? (·.name = n) = none := by simpa using h
  rw [bodyOf?, hfind, Option.bind_none]

namespace Written

section
variable (ds : List Declaration)

mutual

/-- A type with the names of declarations replaced by what their types say, all at once. -/
def replace : Written → Written
  | word n => ((Declaration.bodyOf? ds n).map fun t => read t.render).getD (word n)
  | array w => array (replace w)
  | join op operands => join op (replaceAll operands)
  | object members => object (replaceMembers members)

/-- Some types with names replaced. -/
def replaceAll : List Written → List Written
  | [] => []
  | w :: rest => replace w :: replaceAll rest

/-- The members of an object with names replaced. -/
def replaceMembers : List (String × Written) → List (String × Written)
  | [] => []
  | (h, w) :: rest => (h, replace w) :: replaceMembers rest

end

theorem replaceAll_eq_map (ws : List Written) : replaceAll ds ws = ws.map (replace ds) := by
  induction ws with
  | nil => rfl
  | cons w rest ih => rw [replaceAll, ih, List.map_cons]

theorem replaceMembers_eq_map (ms : List (String × Written)) :
    replaceMembers ds ms = ms.map fun m => (m.1, replace ds m.2) := by
  induction ms with
  | nil => rfl
  | cons m rest ih => rw [replaceMembers, ih, List.map_cons]

theorem replace_word {ds : List Declaration} {n : String} (h : ∀ d ∈ ds, d.name ≠ n) :
    replace ds (word n) = word n := by
  rw [replace, Declaration.bodyOf?_eq_none h, Option.map_none, Option.getD_none]

/-! ## Names replaced again and again -/

theorem iterate_replace_array (k : Nat) (w : Written) :
    (replace ds)^[k] (array w) = array ((replace ds)^[k] w) := by
  induction k generalizing w with
  | zero => rfl
  | succ k ih => rw [Function.iterate_succ_apply, Function.iterate_succ_apply, replace, ih]

theorem iterate_replace_join (k : Nat) (op : Operator) (ws : List Written) :
    (replace ds)^[k] (join op ws) = join op (ws.map (replace ds)^[k]) := by
  induction k generalizing ws with
  | zero => simp
  | succ k ih =>
    rw [Function.iterate_succ_apply, replace, replaceAll_eq_map, ih, List.map_map,
      Function.iterate_succ]

theorem iterate_replace_object (k : Nat) (ms : List (String × Written)) :
    (replace ds)^[k] (object ms) = object (ms.map fun m => (m.1, (replace ds)^[k] m.2)) := by
  induction k generalizing ms with
  | zero => simp
  | succ k ih =>
    rw [Function.iterate_succ_apply, replace, replaceMembers_eq_map, ih, List.map_map]
    rfl

/-- Types that are one type are so with names replaced. -/
theorem Same.replace {w v : Written} (h : Same w v) : Same (replace ds w) (replace ds v) := by
  induction h with
  | refl => exact .refl _
  | symm _ ih => exact ih.symm
  | trans _ _ ihw ihv => exact ihw.trans ihv
  | array _ ih =>
    rw [Written.replace, Written.replace]
    exact .array ih
  | operand op before after _ ih =>
    simp only [Written.replace, replaceAll_eq_map, List.map_append, List.map_cons]
    exact .operand op _ _ ih
  | member head before after _ ih =>
    simp only [Written.replace, replaceMembers_eq_map, List.map_append, List.map_cons]
    exact .member head _ _ ih
  | single op w =>
    rw [Written.replace, replaceAll_eq_map, List.map_singleton]
    exact .single op _
  | nested op before inner after =>
    simp only [Written.replace, replaceAll_eq_map, List.map_append, List.map_cons]
    exact .nested op _ _ _
  | again w before between after =>
    simp only [Written.replace, replaceAll_eq_map, List.map_append, List.map_cons]
    exact .again _ _ _ _

theorem Same.iterate_replace {w v : Written} (h : Same w v) (k : Nat) :
    Same ((Written.replace ds)^[k] w) ((Written.replace ds)^[k] v) := by
  induction k generalizing w v with
  | zero => exact h
  | succ k ih =>
    rw [Function.iterate_succ_apply, Function.iterate_succ_apply]
    exact ih (h.replace ds)

/-- Replacing declared names other than `null` leaves `null` among the alternatives. -/
theorem AllowsNull.replace {ds : List Declaration} (hds : ∀ d ∈ ds, d.name ≠ Builtin.null.text)
    {w : Written} (h : AllowsNull w) : AllowsNull (replace ds w) := by
  induction h with
  | null =>
    rw [Written.null, replace_word hds]
    exact .null
  | single op _ ih =>
    rw [Written.replace, replaceAll_eq_map]
    exact .single op ih
  | alternative hmem _ ih =>
    rw [Written.replace, replaceAll_eq_map]
    exact .alternative (List.mem_map_of_mem hmem) ih

theorem AllowsNull.iterate_replace {ds : List Declaration}
    (hds : ∀ d ∈ ds, d.name ≠ Builtin.null.text) (k : Nat) {w : Written} (h : AllowsNull w) :
    AllowsNull ((Written.replace ds)^[k] w) := by
  induction k generalizing w with
  | zero => exact h
  | succ k ih =>
    rw [Function.iterate_succ_apply]
    exact ih (h.replace hds)

end

/-! ## Types that unfold -/

/-- From a number of replacements on, a type is another one and uses no declared name. -/
def Unfolds (ds : List Declaration) (k : Nat) (w v : Written) : Prop :=
  ∀ j ≥ k, Same ((replace ds)^[j] w) v ∧ ∀ d ∈ ds, d.name ∉ ((replace ds)^[j] w).words

namespace Unfolds

variable {ds : List Declaration} {k l : Nat} {w v u : Written}

theorem mono (h : Unfolds ds k w v) (hkl : k ≤ l) : Unfolds ds l w v :=
  fun j hj => h j (Nat.le_trans hkl hj)

theorem same (h : Unfolds ds k w v) (hvu : Same v u) : Unfolds ds k w u :=
  fun j hj => ⟨(h j hj).1.trans hvu, (h j hj).2⟩

theorem of_same (hwv : Same w v) (h : Unfolds ds k v u) : Unfolds ds k w u := by
  intro j hj
  have hiterate := hwv.iterate_replace ds j
  refine ⟨hiterate.trans (h j hj).1, fun d hd hmem => ?_⟩
  exact (h j hj).2 d hd ((hiterate.mem_words d.name).1 hmem)

/-- A word that is no declared name. -/
theorem word {n : String} (hn : ∀ d ∈ ds, d.name ≠ n) : Unfolds ds k (.word n) (.word n) := by
  intro j _
  rw [Function.iterate_fixed (replace_word hn) j]
  refine ⟨.refl _, ?_⟩
  simpa [words] using hn

/-- A declared name is replaced by its type first. -/
theorem declared (hnodup : (ds.map (·.name)).Nodup) {d : Declaration} (hd : d ∈ ds)
    {t : TypeExpr} (hbody : d.model.body? = some t) (h : Unfolds ds k (read t.render) v) :
    Unfolds ds (k + 1) (.word d.name) v := by
  intro j hj
  obtain ⟨i, rfl⟩ : ∃ i, j = i + 1 := ⟨j - 1, by omega⟩
  have hreplace : replace ds (.word d.name) = read t.render := by
    rw [replace, Declaration.bodyOf?_of_mem hnodup hd, hbody, Option.map_some, Option.getD_some]
  rw [Function.iterate_succ_apply, hreplace]
  exact h i (by omega)

theorem array (h : Unfolds ds k w v) : Unfolds ds k (.array w) (.array v) := by
  intro j hj
  rw [iterate_replace_array, words]
  exact ⟨.array (h j hj).1, (h j hj).2⟩

theorem join {ws vs : List Written} (op : Operator) (h : List.Forall₂ (Unfolds ds k) ws vs) :
    Unfolds ds k (.join op ws) (.join op vs) := by
  intro j hj
  rw [iterate_replace_join, words]
  refine ⟨.join ?_ op, ?_⟩
  · rw [List.forall₂_map_left_iff]
    exact h.imp fun _ _ hwv => (hwv j hj).1
  · intro d hd hmem
    obtain ⟨_, hreplaced, hmem⟩ := mem_wordsOfAll.1 hmem
    obtain ⟨w, hw, rfl⟩ := List.mem_map.1 hreplaced
    obtain ⟨v, -, hwv⟩ := exists_right_of_forall₂ h hw
    exact (hwv j hj).2 d hd hmem

theorem object {ms ns : List (String × Written)}
    (h : List.Forall₂ (fun m n => m.1 = n.1 ∧ Unfolds ds k m.2 n.2) ms ns) :
    Unfolds ds k (.object ms) (.object ns) := by
  intro j hj
  rw [iterate_replace_object, words]
  refine ⟨.object ?_, ?_⟩
  · rw [List.forall₂_map_left_iff]
    exact h.imp fun _ _ hmn => ⟨hmn.1, (hmn.2 j hj).1⟩
  · intro d hd hmem
    obtain ⟨_, hreplaced, hmem⟩ := mem_wordsOfMembers.1 hmem
    obtain ⟨m, hm, rfl⟩ := List.mem_map.1 hreplaced
    obtain ⟨n, -, hmn⟩ := exists_right_of_forall₂ h hm
    exact (hmn.2 j hj).2 d hd hmem

section
variable (hds : ∀ d ∈ ds, d.name ≠ Builtin.null.text)
include hds

theorem nullable (h : Unfolds ds k w v) :
    Unfolds ds k (.join .or [w, null]) (.join .or [v, null]) :=
  .join .or (.cons h (.cons (.word hds) .nil))

/-- `null` may be added before names are replaced or after, if it is there already. -/
theorem nullable_left (h : Unfolds ds k w v) (hv : AllowsNull v) :
    Unfolds ds k (.join .or [w, null]) v :=
  (h.nullable hds).same hv.same

theorem nullable_right (h : Unfolds ds k w v) (hw : AllowsNull w) :
    Unfolds ds k w (.join .or [v, null]) := by
  intro j hj
  refine ⟨?_, (h j hj).2⟩
  exact (hw.iterate_replace hds j).same.symm.trans (.operand .or [] _ (h j hj).1)

end
end Unfolds
end Written
end ApiTypes

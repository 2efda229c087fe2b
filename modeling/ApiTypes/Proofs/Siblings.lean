import ApiTypes.Proofs.Shape
import Mathlib.Data.List.Nodup
import Std.Data.String.ToNat

/-!
# Names of siblings

* `Resolve.freeNumber_not_mem`, `Resolve.freeName_not_mem` : a free name is free;
* `Resolve.childNames_apart` : the members of one object have names of their own;
* `Resolve.numbered_inj` : so have the parts of one composition, by the number of those with
  declarations before them.
-/

namespace ApiTypes.Resolve

theorem append_number_inj {name : String} {m n : Nat} :
    name ++ toString m = name ++ toString n ↔ m = n := by
  rw [String.append_right_inj]
  exact Nat.repr_inj

theorem append_number_ne (name : String) (n : Nat) : name ++ toString n ≠ name := by
  intro h
  have hlength := congrArg (fun s : String => s.toList.length) h
  have hdigits : (toString n).toList.length ≠ 0 := by
    rw [Nat.toString_eq_repr, Nat.repr, String.toList_ofList]
    exact fun hzero => Nat.toDigits_ne_nil (List.length_eq_zero_iff.1 hzero)
  simp only [String.toList_append, List.length_append] at hlength
  omega

/-- A number that is found is free, or all numbers that were tried are used. -/
theorem freeNumber_spec (used : List String) (name : String) (tries n : Nat) :
    name ++ toString (freeNumber used name tries n) ∉ used ∨
      ∀ i < tries, name ++ toString (n + i) ∈ used := by
  induction tries generalizing n with
  | zero => exact .inr fun i hi => absurd hi (Nat.not_lt_zero i)
  | succ tries ih =>
    rw [freeNumber]
    split
    · rename_i hused
      rcases ih (n + 1) with hfree | hall
      · exact .inl hfree
      · refine .inr fun i hi => ?_
        cases i with
        | zero => exact List.contains_iff_mem.1 hused
        | succ i =>
          rw [show n + (i + 1) = n + 1 + i by omega]
          exact hall i (by omega)
    · rename_i hfree
      exact .inl fun hmem => hfree (List.contains_iff_mem.2 hmem)

/-- Among as many numbers as there are used names, one is free if another name is used too. -/
theorem freeNumber_not_mem {used : List String} {name other : String} (hother : other ∈ used)
    (hne : ∀ i : Nat, name ++ toString i ≠ other) :
    name ++ toString (freeNumber used name used.length 2) ∉ used := by
  rcases freeNumber_spec used name used.length 2 with hfree | hall
  · exact hfree
  · exfalso
    have hnodup : (other :: (List.range used.length).map fun i => name ++ toString (2 + i)).Nodup := by
      rw [List.nodup_cons]
      refine ⟨?_, List.Nodup.map (fun i j hij => ?_) List.nodup_range⟩
      · rw [List.mem_map]
        rintro ⟨i, -, hi⟩
        exact hne _ hi
      · have := append_number_inj.1 hij
        omega
    have hsubset : (other :: (List.range used.length).map fun i => name ++ toString (2 + i)) ⊆
        used := by
      refine List.cons_subset.2 ⟨hother, fun m hm => ?_⟩
      obtain ⟨i, hi, rfl⟩ := List.mem_map.1 hm
      exact hall i (List.mem_range.1 hi)
    have hlength := List.Nodup.length_le_of_subset hnodup hsubset
    simp only [List.length_cons, List.length_map, List.length_range] at hlength
    omega

theorem freeName_not_mem (used : List String) (name : String) : freeName used name ∉ used := by
  unfold freeName
  split
  · rename_i hname
    exact freeNumber_not_mem (List.contains_iff_mem.1 hname) (append_number_ne name)
  · rename_i hname
    exact fun hmem => hname (List.contains_iff_mem.2 hmem)

/-- The names of members, but for those without one, are new and differ. -/
theorem childNamesFrom_apart {ctx : Context} {parent : String} {used : List String}
    {keys : List Value} {names : List String}
    (h : childNamesFrom ctx parent used keys = .ok names) :
    (∀ n ∈ names, n ≠ "" → n ∉ used) ∧ names.Pairwise fun m n => m ≠ "" → m ≠ n := by
  induction keys generalizing used names with
  | nil =>
    obtain rfl : [] = names := by simpa [childNamesFrom] using h
    simp
  | cons key rest ih =>
    rw [childNamesFrom] at h
    obtain ⟨child, -, h⟩ := Except.bind_eq_ok.1 h
    obtain ⟨later, hlater, h⟩ := Except.bind_eq_ok.1 h
    obtain rfl : freeName used child :: later = names := by simpa [pure, Except.pure] using h
    obtain ⟨hnew, hapart⟩ := ih hlater
    have hsubset : ∀ n ∈ later, n ≠ "" → n ∉ used ∧ (freeName used child ≠ "" →
        freeName used child ≠ n) := by
      intro n hn hne
      have hout := hnew n hn hne
      split at hout
      · rename_i hempty
        exact ⟨hout, fun hgiven => absurd hempty hgiven⟩
      · rw [List.mem_cons, not_or] at hout
        exact ⟨hout.2, fun _ => Ne.symm hout.1⟩
    constructor
    · rw [List.forall_mem_cons]
      exact ⟨fun _ => freeName_not_mem used child, fun n hn hne => (hsubset n hn hne).1⟩
    · refine List.pairwise_cons.2 ⟨fun n hn hne => ?_, hapart⟩
      by_cases hempty : n = ""
      · rw [hempty]
        exact hne
      · exact (hsubset n hn hempty).2 hne

/-- Members of one object that have names have different ones. -/
theorem childNames_apart {ctx : Context} {parent : Option String} {keys : List Value}
    {names : List (Option String)} (h : childNames ctx parent keys = .ok names) :
    names.Pairwise fun m n => givenName m ≠ none → givenName m ≠ givenName n := by
  unfold childNames at h
  split at h
  · obtain rfl : (keys.map fun _ => none) = names := by simpa using h
    rw [List.pairwise_map]
    exact List.pairwise_of_forall fun _ _ hnone => absurd rfl hnone
  · obtain ⟨texts, htexts, h⟩ := Except.bind_eq_ok.1 h
    obtain rfl : texts.map some = names := by simpa [pure, Except.pure] using h
    rw [List.pairwise_map]
    refine (childNamesFrom_apart htexts).2.imp ?_
    intro m n hmn hgiven heq
    have hm : m ≠ "" := by
      rintro rfl
      exact hgiven rfl
    have hsome : givenName (some m) = some m := by simp [givenName, Option.filter, hm]
    rw [hsome] at heq
    obtain ⟨hmem, -⟩ := Option.filter_eq_some_iff.1 heq.symm
    exact hmn hm (Option.some.inj hmem).symm

/-- Parts with different numbers have different names. -/
theorem numbered_inj {name : Option String} {m n : Nat} (hname : numbered name m ≠ none)
    (h : numbered name m = numbered name n) : m = n := by
  cases name with
  | none => exact absurd rfl hname
  | some base =>
    simp only [numbered, Option.map_some, Option.some.injEq] at h
    split_ifs at h with hm hn hn
    · rw [hm, hn]
    · exact absurd h.symm (append_number_ne base _)
    · exact absurd h (append_number_ne base _)
    · have := append_number_inj.1 h
      omega

end ApiTypes.Resolve

import ApiTypes.Proofs.MergedEnums
import ApiTypes.Proofs.QuotedTexts
import ApiTypes.Proofs.Siblings
import Mathlib.Data.List.Nodup

/-!
# Enums as constants and as unions

The values of an enum are written in two ways: as entries of a constant, without those whose key has
come before, and as alternatives of a type, without those whose literal has come before.

* `Enum.numberKey_inj` : different whole numbers have different keys;
* `Enum.OfOneKind` : values that are all texts or all whole numbers, `null` aside;
* `Enum.eq_of_ofOneKind` : such values have keys and literals of their own;
* `Enum.literals_of_entries` : where keys and literals tell the same values apart, the entries have
  the literals that are joined;
* `listed_values` : so both ways list each value once, in the same order.
-/

namespace ApiTypes

namespace Enum

/-! ## Keys of whole numbers -/

theorem toDigits_inj {m n : Nat} (h : Nat.toDigits 10 m = Nat.toDigits 10 n) : m = n := by
  rw [← Nat.toList_repr, ← Nat.toList_repr] at h
  exact Nat.repr_inj.1 (String.toList_injective h)

/-- Digits are written in keys as they are. -/
theorem flatMap_toDigits (n : Nat) :
    (Nat.toDigits 10 n).flatMap numberKeyChar = Nat.toDigits 10 n := by
  have hchar : ∀ c ∈ Nat.toDigits 10 n, numberKeyChar c = [c] := by
    intro c hc
    have hdigit : c.isDigit = true := Nat.isDigit_of_mem_toDigits (by decide) (by decide) hc
    have hminus : c ≠ '-' := by
      rintro rfl
      exact absurd hdigit (by decide)
    have hpoint : c ≠ '.' := by
      rintro rfl
      exact absurd hdigit (by decide)
    have halphanum : c.isAlphanum = true := by
      rw [Char.isAlphanum, hdigit, Bool.or_true]
    rw [numberKeyChar, if_neg hminus, if_neg hpoint, halphanum]
    rfl
  rw [List.flatMap_congr hchar, List.flatMap_singleton']

/-- A whole number in a key: the sign as a word, and the digits. -/
theorem flatMap_toString (n : Int) : (toString n).toList.flatMap numberKeyChar =
    (if n < 0 then "MINUS_".toList else []) ++ Nat.toDigits 10 n.natAbs := by
  cases n with
  | ofNat n =>
    have htext : (toString (Int.ofNat n)).toList = Nat.toDigits 10 n := Nat.toList_repr
    have hsign : ¬ Int.ofNat n < 0 := Int.not_lt.2 (Int.natCast_nonneg n)
    rw [htext, flatMap_toDigits, if_neg hsign]
    rfl
  | negSucc n =>
    have htext : (toString (Int.negSucc n)).toList = '-' :: Nat.toDigits 10 (n + 1) := by
      change ("-" ++ (n + 1).repr).toList = _
      rw [String.toList_append, Nat.toList_repr]
      rfl
    rw [htext, List.flatMap_cons, flatMap_toDigits, if_pos (Int.negSucc_lt_zero n)]
    rfl

/-- No digits begin with the word for the sign. -/
theorem numberKey_inj : Function.Injective fun n : Int => numberKey (toString n) := by
  have hsign : ∀ m n : Nat, Nat.toDigits 10 m ≠ "MINUS_".toList ++ Nat.toDigits 10 n := by
    intro m n h
    have hletter : 'M' ∈ Nat.toDigits 10 m := by
      rw [h]
      exact List.mem_append_left _ (by decide)
    exact absurd (Nat.isDigit_of_mem_toDigits (by decide) (by decide) hletter) (by decide)
  intro m n h
  have hchars := List.append_cancel_left (String.ofList_injective h)
  rw [flatMap_toString, flatMap_toString] at hchars
  split_ifs at hchars with hm hn hn
  · have habs := toDigits_inj (List.append_cancel_left hchars)
    omega
  · exact absurd hchars.symm (hsign _ _)
  · exact absurd hchars (hsign _ _)
  · have habs := toDigits_inj hchars
    omega

/-! ## Values of one kind -/

/-- Values that are all texts, or all whole numbers, `null` aside. -/
def OfOneKind (values : List Value) : Prop :=
  (∀ v ∈ values, v = .null ∨ ∃ s : String, v = .text s) ∨
    ∀ v ∈ values, v = .null ∨ ∃ n : Int, v = .atom (.int n)

variable {values : List Value}

/-- `null` has no key, and its literal is that of no other value. -/
theorem eq_of_null {v w : Value} (hnull : v = .null ∨ w = .null)
    (h : key? v = key? w ∨ literal v = literal w) : v = w := by
  have hkey : ∀ u : Value, key? u = none → u = .null := by
    intro u hu
    by_contra hne
    obtain ⟨k, hk⟩ := exists_key hne
    rw [hu] at hk
    cases hk
  rcases hnull with rfl | rfl
  · rcases h with h | h
    · exact (hkey w h.symm).symm
    · exact (literal_eq_null h.symm).symm
  · rcases h with h | h
    · exact hkey v h
    · exact literal_eq_null h

/-- Values of one kind have keys and literals of their own. -/
theorem eq_of_ofOneKind (h : OfOneKind values) {v w : Value} (hv : v ∈ values) (hw : w ∈ values)
    (hsame : key? v = key? w ∨ literal v = literal w) : v = w := by
  by_cases hnull : v = .null ∨ w = .null
  · exact eq_of_null hnull hsame
  obtain ⟨hvn, hwn⟩ := not_or.1 hnull
  rcases h with htexts | hnumbers
  · obtain ⟨s, rfl⟩ := (htexts v hv).resolve_left hvn
    obtain ⟨t, rfl⟩ := (htexts w hw).resolve_left hwn
    rcases hsame with hkey | hliteral
    · rw [Name.member_inj (Option.some.inj hkey)]
    · have htext : s = t := Text.quoted_inj hliteral
      rw [htext]
  · obtain ⟨m, rfl⟩ := (hnumbers v hv).resolve_left hvn
    obtain ⟨n, rfl⟩ := (hnumbers w hw).resolve_left hwn
    rcases hsame with hkey | hliteral
    · rw [numberKey_inj (Option.some.inj hkey)]
    · have htext : toString m = toString n := hliteral
      rw [numberKey_inj (congrArg numberKey htext)]

/-! ## Entries and alternatives -/

theorem nodup_distinct (ss : List String) : (distinct ss).Nodup := by
  induction ss with
  | nil => exact .nil
  | cons s rest ih =>
    rw [distinct, List.nodup_cons]
    refine ⟨fun h => ?_, ih.filter _⟩
    exact of_decide_eq_true (List.mem_filter.1 h).2 rfl

theorem filter_distinct (p : String → Bool) (ss : List String) :
    (distinct ss).filter p = distinct (ss.filter p) := by
  induction ss with
  | nil => rfl
  | cons s rest ih =>
    rw [distinct, List.filter_cons, List.filter_cons, List.filter_filter]
    cases hs : p s with
    | true =>
      rw [if_pos rfl, if_pos rfl, distinct, ← ih, List.filter_filter]
      congr 2
      funext t
      exact Bool.and_comm _ _
    | false =>
      rw [if_neg (by simp), if_neg (by simp), ← ih]
      refine List.filter_congr fun t _ => ?_
      have hne : p t = true → decide (t ≠ s) = true := by
        intro ht
        refine decide_eq_true ?_
        rintro rfl
        rw [hs] at ht
        cases ht
      cases ht : p t with
      | true => rw [hne ht, Bool.and_true]
      | false => rw [Bool.false_and]

/-- Where keys and literals tell the same entries apart, leaving out those whose key has come before
leaves out those whose literal has. -/
theorem map_snd_firstOfKey {es : List (String × String)}
    (h : ∀ d ∈ es, ∀ e ∈ es, d.1 = e.1 ↔ d.2 = e.2) :
    (firstOfKey es).map Prod.snd = distinct (es.map Prod.snd) := by
  induction es with
  | nil => rfl
  | cons d rest ih =>
    rw [firstOfKey, List.map_cons, List.map_cons, distinct]
    congr 1
    rw [← ih fun a ha b hb => h a (List.mem_cons_of_mem _ ha) b (List.mem_cons_of_mem _ hb),
      List.filter_map]
    congr 1
    refine List.filter_congr fun e he => ?_
    have hmem := List.mem_cons_of_mem d (mem_of_mem_firstOfKey he)
    exact decide_eq_decide.2 (not_congr (h e hmem d (List.mem_cons_self ..)))

/-- The literals of the values that have a key are those but `null`. -/
theorem map_snd_keyed (values : List Value) :
    (values.filterMap fun v => (key? v).map fun k => (k, literal v)).map Prod.snd =
      (values.map literal).filter (· ≠ "null") := by
  induction values with
  | nil => rfl
  | cons v rest ih =>
    rw [List.filterMap_cons, List.map_cons, List.filter_cons, ← ih]
    by_cases hnull : v = .null
    · subst hnull
      rfl
    · obtain ⟨k, hk⟩ := exists_key hnull
      have hliteral : literal v ≠ "null" := fun h => hnull (literal_eq_null h)
      rw [hk, if_pos (decide_eq_true hliteral)]
      rfl

/-- Where keys and literals tell the same values apart, the entries have the literals that are
joined, but `null`. -/
theorem literals_of_entries
    (h : ∀ v ∈ values, ∀ w ∈ values, key? v = key? w ↔ literal v = literal w) :
    (entries values).map Prod.snd = (literals values).filter (· ≠ "null") := by
  rw [entries, literals, filter_distinct, ← map_snd_keyed]
  refine map_snd_firstOfKey fun d hd e he => ?_
  obtain ⟨v, hv, hd⟩ := List.mem_filterMap.1 hd
  obtain ⟨w, hw, he⟩ := List.mem_filterMap.1 he
  obtain ⟨k, hk, rfl⟩ := Option.map_eq_some_iff.1 hd
  obtain ⟨l, hl, rfl⟩ := Option.map_eq_some_iff.1 he
  rw [← h v hv w hw, hk, hl, Option.some.injEq]

end Enum

/-- Of values that are all texts, or all whole numbers, `null` aside, the constant and the union list
the same: the keys of the entries differ, and their literals are the alternatives of the union but
`null`, in the same order. Each value but `null` is listed once, and no two values have one
literal. -/
theorem listed_values {values : List Value} (h : Enum.OfOneKind values) :
    ((Enum.entries values).map Prod.fst).Nodup ∧
    (Enum.entries values).map Prod.snd = (Enum.literals values).filter (· ≠ "null") ∧
    (∀ v ∈ values, v ≠ .null →
      ((Enum.entries values).map Prod.snd).count (Enum.literal v) = 1) ∧
    ∀ v ∈ values, ∀ w ∈ values, Enum.literal v = Enum.literal w → v = w := by
  have hsame : ∀ v ∈ values, ∀ w ∈ values,
      Enum.key? v = Enum.key? w ↔ Enum.literal v = Enum.literal w := by
    intro v hv w hw
    constructor
    · intro hkey
      rw [Enum.eq_of_ofOneKind h hv hw (.inl hkey)]
    · intro hliteral
      rw [Enum.eq_of_ofOneKind h hv hw (.inr hliteral)]
  have hliterals := Enum.literals_of_entries hsame
  refine ⟨Enum.nodup_keys_entries values, hliterals, fun v hv hnull => ?_, fun v hv w hw hliteral =>
    Enum.eq_of_ofOneKind h hv hw (.inr hliteral)⟩
  rw [hliterals]
  refine List.count_eq_one_of_mem ((Enum.nodup_distinct _).filter _) (List.mem_filter.2 ⟨?_, ?_⟩)
  · exact Enum.mem_distinct.2 (List.mem_map_of_mem hv)
  · exact decide_eq_true fun hliteral => hnull (Enum.literal_eq_null hliteral)

theorem listed_values_signs :
    let values : List Value := [.atom (.int 7), .null, .atom (.int (-7)), .atom (.int 7)]
    Enum.OfOneKind values ∧
      Enum.entries values = [("NUMBER_7", "7"), ("NUMBER_MINUS_7", "-7")] ∧
      Enum.literals values = ["7", "null", "-7"] ∧
      (Enum.entries values).map Prod.snd = (Enum.literals values).filter (· ≠ "null") ∧
      ((Enum.entries values).map Prod.snd).count "7" = 1 := by
  intro values
  have hkind : Enum.OfOneKind values := by
    refine .inr fun v hv => ?_
    simp only [values, List.mem_cons, List.not_mem_nil, or_false] at hv
    rcases hv with rfl | rfl | rfl | rfl
    · exact .inr ⟨7, rfl⟩
    · exact .inl rfl
    · exact .inr ⟨-7, rfl⟩
    · exact .inr ⟨7, rfl⟩
  obtain ⟨-, hliterals, hcount, -⟩ := listed_values hkind
  have hone := hcount (.atom (.int 7)) (List.mem_cons_self ..) (by simp)
  exact ⟨hkind, by decide +kernel, by decide +kernel, hliterals, hone⟩

end ApiTypes

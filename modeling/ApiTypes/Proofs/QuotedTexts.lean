import ApiTypes.Enum

/-!
# Texts between quotes

* `Text.quotePlaces` : where the quotes of a text are, those after a backslash aside;
* `Text.IsLiteral` : a text between two quotes that stands for a text; `Text.IsLiteral.unique` : it
  stands for one only;
* `Text.isLiteral_quoted` : what is quoted stands for itself;
* `Name.member_cases`, `Name.member_inj` : a member name is bare or quoted, and says which member it
  is;
* `quoted_texts` : literals of texts and quoted member names end where they should, and nothing of
  the text is lost.
-/

namespace ApiTypes

namespace Text

/-! ## Quotes -/

/-- The places of the quotes in a text, counted from a number. A backslash takes the character after
it out of the count, whatever that is. -/
def quotePlaces (place : Nat) : List Char → List Nat
  | '\\' :: _ :: rest => quotePlaces (place + 2) rest
  | c :: rest =>
    if c = '\'' then place :: quotePlaces (place + 1) rest else quotePlaces (place + 1) rest
  | [] => []

theorem quotePlaces_of_ne {c : Char} (h : c ≠ '\\') (place : Nat) (rest : List Char) :
    quotePlaces place (c :: rest) =
      if c = '\'' then place :: quotePlaces (place + 1) rest else quotePlaces (place + 1) rest := by
  rw [quotePlaces]
  exact fun _ _ heq _ => h heq

/-- An escaped text has no quotes of its own. -/
theorem quotePlaces_escape (cs : List Char) (place : Nat) (rest : List Char) :
    quotePlaces place (escape cs ++ rest) = quotePlaces (place + (escape cs).length) rest := by
  induction cs generalizing place with
  | nil => rfl
  | cons c cs ih =>
    rw [escape]
    by_cases hc : c = '\\' ∨ c = '\''
    · rw [if_pos hc, List.cons_append, List.cons_append, quotePlaces, ih, List.length_cons,
        List.length_cons]
      congr 1
      omega
    · obtain ⟨hslash, hquote⟩ := not_or.1 hc
      rw [if_neg hc, List.cons_append, quotePlaces_of_ne hslash, if_neg hquote, ih,
        List.length_cons]
      congr 1
      omega

/-! ## Literals -/

/-- A text that begins with a quote, has but one more that no backslash escapes, as its last
character, and says another text between them. -/
structure IsLiteral (text s : String) : Prop where
  begins : text.toList.head? = some '\''
  quotes : quotePlaces 0 text.toList = [0, text.toList.length - 1]
  value : unescape text.toList.tail.dropLast = s.toList

theorem IsLiteral.unique {text s t : String} (hs : IsLiteral text s) (ht : IsLiteral text t) :
    s = t :=
  String.toList_injective (hs.value.symm.trans ht.value)

theorem isLiteral_quoted (s : String) : IsLiteral (quoted s) s := by
  have htext : (quoted s).toList = '\'' :: (escape s.toList ++ ['\'']) := by
    rw [quoted, String.toList_ofList]
  constructor
  case begins => rw [htext, List.head?_cons]
  case quotes =>
    rw [htext, quotePlaces_of_ne (by decide), if_pos rfl, quotePlaces_escape,
      quotePlaces_of_ne (by decide), if_pos rfl, quotePlaces, List.length_cons, List.length_append,
      List.length_singleton]
    congr 2
    omega
  case value => rw [htext, List.tail_cons, List.dropLast_concat, unescape_escape]

theorem quoted_inj : Function.Injective quoted := by
  intro s t h
  exact (isLiteral_quoted s).unique (h ▸ isLiteral_quoted t)

end Text

/-! ## Names of members -/

namespace Name

/-- An identifier does not begin with a quote. -/
theorem ne_quoted {s : String} (h : isIdentifier (dropFinalBreak s.toList) = true) (t : String) :
    s ≠ Text.quoted t := by
  rintro rfl
  rw [Text.quoted, String.toList_ofList, dropFinalBreak] at h
  split at h
  · cases hescape : Text.escape t.toList ++ ['\''] with
    | nil => simp at hescape
    | cons c rest =>
      rw [hescape, List.dropLast_cons_cons] at h
      exact absurd h (by simp [isIdentifier, isIdentifierStart])
  · exact absurd h (by simp [isIdentifier, isIdentifierStart])

/-- A member name is bare if it is an identifier, and quoted if it is none. -/
theorem member_cases (key : String) :
    isIdentifier (dropFinalBreak key.toList) = true ∧ member key = key ∨
      isIdentifier (dropFinalBreak key.toList) = false ∧ member key = Text.quoted key := by
  unfold member
  cases isIdentifier (dropFinalBreak key.toList) with
  | true => exact .inl ⟨rfl, rfl⟩
  | false => exact .inr ⟨rfl, rfl⟩

/-- Different members have different names in the source. -/
theorem member_inj : Function.Injective member := by
  intro s t h
  rcases member_cases s with ⟨hs, hbare⟩ | ⟨-, hquoted⟩
  · rw [hbare] at h
    rcases member_cases t with ⟨-, hbare'⟩ | ⟨-, hquoted'⟩
    · exact h.trans hbare'
    · exact absurd (h.trans hquoted') (ne_quoted hs t)
  · rw [hquoted] at h
    rcases member_cases t with ⟨ht, hbare'⟩ | ⟨-, hquoted'⟩
    · exact absurd (hbare'.symm.trans h.symm) (ne_quoted ht s)
    · exact Text.quoted_inj (h.trans hquoted')

end Name

/-- The literal of a text begins with a quote and has no other that is not escaped but its last
character; with the backslashes undone, what stands between them is the text. So it is with the name
of a member, unless that is an identifier, which is its own name. So different texts have different
literals, and different members different names. -/
theorem quoted_texts :
    (∀ s, Text.IsLiteral (Enum.literal (.text s)) s) ∧
    (∀ key, Name.isIdentifier (Name.dropFinalBreak key.toList) = true ∧ Name.member key = key ∨
      Text.IsLiteral (Name.member key) key) ∧
    (Function.Injective fun s => Enum.literal (.text s)) ∧
    Function.Injective Name.member := by
  refine ⟨Text.isLiteral_quoted, fun key => ?_, fun s t h => Text.quoted_inj h, Name.member_inj⟩
  rcases Name.member_cases key with hbare | ⟨-, hquoted⟩
  · exact .inl hbare
  · rw [hquoted]
    exact .inr (Text.isLiteral_quoted key)

example : Name.member "it's \\" = "'it\\'s \\\\'" ∧ Name.member "owner" = "owner" := by decide

end ApiTypes

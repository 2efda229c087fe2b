import ApiTypes.Proofs.Nesting

/-!
# Where doc comments end

* `Comment.IsClosed` : a text that is one comment, which ends at its end and nowhere before;
* `Comment.isClosed_render` : so is every comment in which no text ends it;
* `Value.isDescribed` : whether a value says something about itself;
* `doc_comments` : the comment of a value is empty or closed, and empty just if the value says
  nothing.
-/

namespace ApiTypes

namespace Text

/-- Where no comment ends in the first part, one ends between the two or not at all. -/
theorem eq_of_noEnd {s before after : List Char} (hs : NoEnd s)
    (h : s ++ ['/', '\n'] = before ++ '*' :: '/' :: after) : after = ['\n'] := by
  rcases List.append_eq_append_iff.1 h with ⟨later, -, hlater⟩ | ⟨earlier, rfl, hearlier⟩
  · match later with
    | [] => simp at hlater
    | [c] => simp at hlater
    | c :: d :: more => simp at hlater
  · match earlier with
    | [] => simp at hearlier
    | [c] => exact (by simpa using hearlier : '*' = c ∧ after = ['\n']).2
    | c :: d :: more =>
      obtain ⟨rfl, rfl, -⟩ : '*' = c ∧ '/' = d ∧ after = more ++ ['/', '\n'] := by
        simpa using hearlier
      have hend := (List.isChain_cons_cons.1 (List.isChain_append.1 hs).2.1).1
      exact absurd ⟨rfl, rfl⟩ hend

end Text

namespace Comment
open Text

/-- A text that is a comment up to its line feed: it is framed by the marks that begin and end one,
and no mark that ends one is in it but the last. -/
structure IsClosed (text : String) : Prop where
  framed : ∃ inside, text = "/**" ++ inside ++ "*/\n"
  endsOnce : ∀ before after, text.toList = before ++ '*' :: '/' :: after → after = ['\n']

theorem isClosed_render {c : Comment} (h : c.Guarded) (inline : Bool) :
    IsClosed (c.render inline) := by
  obtain ⟨s, hs, htext⟩ := exists_render h inline
  constructor
  case framed =>
    refine ⟨String.ofList s, String.toList_inj.1 ?_⟩
    simp [htext]
  case endsOnce =>
    intro before after heq
    have hstar : Inert ['*'] := by decide
    have hinside : Inert ('*' :: '*' :: (s ++ ['*'])) :=
      hstar.append (hstar.append (hs.append hstar))
    have hall : NoEnd ('/' :: '*' :: '*' :: (s ++ ['*'])) :=
      List.isChain_cons_cons.2 ⟨by decide, hinside.1⟩
    have hends : '/' :: '*' :: '*' :: (s ++ ['*']) ++ ['/', '\n'] =
        before ++ '*' :: '/' :: after := by
      rw [← heq, htext]
      simp
    exact eq_of_noEnd hall hends

/-- A comment is made just where one of the three things that it can say is given. -/
theorem make?_eq_none {description deprecated summary : Option Value} :
    make? description deprecated summary = none ↔
      (description.any Value.isTrue || deprecated.any Value.isTrue || summary.any Value.isTrue) =
        false := by
  have hgiven : ∀ v : Option Value, (given v).isSome = v.any Value.isTrue := by
    intro v
    cases v with
    | none => rfl
    | some v => cases hv : v.isTrue <;> simp [given, Option.filter, hv]
  rw [← hgiven, ← hgiven, ← hgiven]
  unfold make?
  cases given description <;> cases given deprecated <;> cases given summary <;> simp

end Comment

/-- Whether a value says something about itself: a mapping does, by its description, its
deprecation or its summary. -/
def Value.isDescribed : Value → Bool
  | .map ms => flag ms "description" || flag ms "deprecated" || flag ms "summary"
  | _ => false

theorem Comment.ofValue?_eq_none {v : Value} : ofValue? v = none ↔ v.isDescribed = false := by
  cases v with
  | map ms => exact make?_eq_none
  | atom a => exact iff_of_true rfl rfl
  | list items => exact iff_of_true rfl rfl

theorem Comment.guarded_ofValue? {v : Value} {c : Comment} (h : ofValue? v = some c) :
    c.Guarded := by
  obtain ⟨ms, -, hms⟩ := Option.bind_eq_some_iff.1 h
  exact guarded_make? hms

/-- The comment of a value, on one line or as a block, is empty just if the value is no mapping or
none of its description, deprecation and summary counts as given. Else it begins and ends as
comments do and ends nowhere before, whatever these say. -/
theorem doc_comments (v : Value) (inline : Bool) :
    (Comment.textOf (Comment.ofValue? v) inline = "" ↔ v.isDescribed = false) ∧
      (Comment.textOf (Comment.ofValue? v) inline = "" ∨
        Comment.IsClosed (Comment.textOf (Comment.ofValue? v) inline)) := by
  cases hc : Comment.ofValue? v with
  | none => exact ⟨iff_of_true rfl (Comment.ofValue?_eq_none.1 hc), .inl rfl⟩
  | some c =>
    have hclosed : Comment.IsClosed (Comment.textOf (some c) inline) :=
      Comment.isClosed_render (Comment.guarded_ofValue? hc) inline
    have htext : Comment.textOf (some c) inline ≠ "" := by
      intro hempty
      obtain ⟨inside, hinside⟩ := hclosed.framed
      rw [hempty] at hinside
      simp at hinside
    refine ⟨iff_of_false htext fun hnone => ?_, .inr hclosed⟩
    rw [Comment.ofValue?_eq_none.2 hnone] at hc
    cases hc

example : Comment.textOf (Comment.ofValue? (.map [
    (.text "description", .list [.text "ends */", .text "/ here *"]),
    (.text "summary", .text "**/")])) true =
      "/**\n   * ends *\\/\n   * / here *\n   * @summary **\\/\n   */\n" := by decide +kernel

end ApiTypes

import ApiTypes.Proofs.Nesting
import Mathlib.Data.List.DropRight

/-!
# What stands outside of brackets

* `Text.levels` : the characters of a text, each with whether it lies outside quoted literals,
  comments and brackets;
* `Text.TopLevel` : the characters that do;
* `Text.alternatives` : the parts of a text between such bars;
* `Text.levels_append`, `Text.levels_inside` : a nested text is read by itself, and nothing of it
  lies outside of the brackets around it.
-/

namespace ApiTypes

namespace Text

/-- The characters of the rest of a text, each with whether it lies outside all quoted literals,
comments and brackets. -/
def levels : Scan → List Char → List (Char × Bool)
  | _, [] => []
  | .escaped depth, c :: rest => (c, false) :: levels (.quoted depth) rest
  | .quoted depth, c :: rest =>
    (c, false) :: levels (if c = '\\' then .escaped depth else if c = '\'' then .code depth
      else .quoted depth) rest
  | .comment depth, '*' :: '/' :: rest => ('*', false) :: ('/', false) :: levels (.code depth) rest
  | .comment depth, c :: rest => (c, false) :: levels (.comment depth) rest
  | .code depth, '/' :: '*' :: rest => ('/', false) :: ('*', false) :: levels (.comment depth) rest
  | .code depth, c :: rest =>
    if c = '\'' then (c, false) :: levels (.quoted depth) rest
    else if opens c then (c, false) :: levels (.code (depth + 1)) rest
    else if closes c then (c, false) :: levels (.code (depth - 1)) rest
    else (c, decide (depth = 0)) :: levels (.code depth) rest

-- every lemma below reads a text by these equations
attribute [local simp] levels

/-- Whether a character occurs in a text outside all quoted literals, comments and brackets. -/
def TopLevel (c : Char) (s : String) : Prop := (c, true) ∈ levels (.code 0) s.toList

instance (c : Char) (s : String) : Decidable (TopLevel c s) :=
  inferInstanceAs (Decidable ((c, true) ∈ levels (.code 0) s.toList))

/-- A part of a text without the blanks around it. -/
def trimmed (part : List (Char × Bool)) : String :=
  String.ofList (((part.map Prod.fst).dropWhile (· = ' ')).rdropWhile (· = ' '))

/-- The alternatives that a text is a union of: what stands between its bars outside all quoted
literals, comments and brackets. -/
def alternatives (s : String) : List String :=
  ((levels (.code 0) s.toList).splitOnP (· = ('|', true))).map trimmed

/-! ## Reading nested texts -/

/-- The characters of a text that lies in something. -/
def inside (s : List Char) : List (Char × Bool) := s.map fun c => (c, false)

theorem map_fst_levels (scan : Scan) (s : List Char) : (levels scan s).map Prod.fst = s := by
  fun_induction levels scan s with
  | case1 => rfl
  | _ => simp_all

/-- What stands outside of everything occurs. -/
theorem TopLevel.mem {c : Char} {s : String} (h : TopLevel c s) : c ∈ s.toList := by
  rw [← map_fst_levels (.code 0) s.toList]
  exact List.mem_map_of_mem h

theorem levels_quoted (depth : Nat) (s rest : List Char) :
    levels (.quoted depth) (escape s ++ '\'' :: rest) =
      inside (escape s ++ ['\'']) ++ levels (.code depth) rest := by
  induction s with
  | nil => simp [escape, inside]
  | cons c s ih =>
    by_cases hmark : c = '\\' ∨ c = '\''
    · simpa [escape, hmark, inside] using ih
    · have hbackslash : c ≠ '\\' := fun h => hmark (.inl h)
      have hquote : c ≠ '\'' := fun h => hmark (.inr h)
      simpa [escape, hbackslash, hquote, inside] using ih

/-- A comment does not end before its last two characters. -/
theorem NoEnd.not_end {c : Char} {s rest : List Char} (h : NoEnd (c :: s)) :
    ∀ later, c = '*' → s ++ '*' :: '/' :: rest = '/' :: later → False := by
  rintro later rfl hlater
  cases s with
  | nil => simp at hlater
  | cons d s =>
    obtain ⟨rfl, -⟩ := List.cons.inj hlater
    exact (List.isChain_cons_cons.1 h).1 ⟨rfl, rfl⟩

theorem levels_comment (depth : Nat) {s : List Char} (hs : NoEnd s) (rest : List Char) :
    levels (.comment depth) (s ++ '*' :: '/' :: rest) =
      inside (s ++ ['*', '/']) ++ levels (.code depth) rest := by
  induction s with
  | nil => simp [inside]
  | cons c s ih =>
    have hstep : levels (.comment depth) (c :: (s ++ '*' :: '/' :: rest)) =
        (c, false) :: levels (.comment depth) (s ++ '*' :: '/' :: rest) :=
      levels.eq_5 _ _ _ hs.not_end
    simpa [hstep, inside] using ih (List.IsChain.tail hs)

theorem levels_bare (depth : Nat) {c : Char} (hc : isBare c = true) (rest : List Char) :
    levels (.code depth) (c :: rest) = (c, decide (depth = 0)) :: levels (.code depth) rest := by
  have hnot : ((c ≠ '\'' ∧ c ≠ '/') ∧ opens c = false) ∧ closes c = false := by
    simpa [isBare] using hc
  obtain ⟨⟨⟨hquote, hslash⟩, hopens⟩, hcloses⟩ := hnot
  rw [levels.eq_7 _ _ _ fun _ h _ => hslash h]
  simp [hquote, hopens, hcloses]

theorem levels_opening (depth : Nat) (b : Bracket) (rest : List Char) :
    levels (.code depth) (b.opening :: rest) =
      (b.opening, false) :: levels (.code (depth + 1)) rest := by
  cases b <;> simp [Bracket.opening, opens]

theorem levels_closing (depth : Nat) (b : Bracket) (rest : List Char) :
    levels (.code (depth + 1)) (b.closing :: rest) =
      (b.closing, false) :: levels (.code depth) rest := by
  cases b <;> simp [Bracket.closing, opens, closes]

/-- A nested text is read by itself, whatever stands after it, and nothing of it lies outside of
everything where it stands in brackets. -/
theorem exists_levels {s : List Char} (h : Nested s) (depth : Nat) :
    ∃ marked, (∀ rest, levels (.code depth) (s ++ rest) = marked ++ levels (.code depth) rest) ∧
      (0 < depth → marked = inside s) := by
  -- what stands in a bracket is read one level deeper, so the depth is general in the induction
  induction h generalizing depth with
  | nil => exact ⟨[], fun rest => rfl, fun _ => rfl⟩
  | @bare c s hc _ ih =>
    obtain ⟨marked, hmarked, hdeep⟩ := ih depth
    refine ⟨(c, decide (depth = 0)) :: marked, fun rest => ?_, fun hpos => ?_⟩
    · rw [List.cons_append, levels_bare depth hc, hmarked, List.cons_append]
    · simp [hdeep hpos, inside, Nat.ne_of_gt hpos]
  | @quoted text s _ ih =>
    obtain ⟨marked, hmarked, hdeep⟩ := ih depth
    refine ⟨('\'', false) :: (inside (escape text ++ ['\'']) ++ marked), fun rest => ?_,
      fun hpos => ?_⟩
    · simp [levels_quoted, hmarked]
    · simp [hdeep hpos, inside]
  | @comment text s hs _ ih =>
    obtain ⟨marked, hmarked, hdeep⟩ := ih depth
    refine ⟨('/', false) :: ('*', false) :: (inside (text ++ ['*', '/']) ++ marked), fun rest => ?_,
      fun hpos => ?_⟩
    · simp [levels_comment depth hs, hmarked]
    · simp [hdeep hpos, inside]
  | @group b inner s _ _ ihinner ih =>
    obtain ⟨within, hwithin, hinner⟩ := ihinner (depth + 1)
    obtain ⟨marked, hmarked, hdeep⟩ := ih depth
    refine ⟨(b.opening, false) :: (inside inner ++ (b.closing, false) :: marked), fun rest => ?_,
      fun hpos => ?_⟩
    · simp [levels_opening, hwithin, hinner, levels_closing, hmarked]
    · simp [hdeep hpos, inside]

theorem levels_append {s : List Char} (h : Nested s) (depth : Nat) (rest : List Char) :
    levels (.code depth) (s ++ rest) = levels (.code depth) s ++ levels (.code depth) rest := by
  obtain ⟨marked, hmarked, -⟩ := exists_levels h depth
  have hself : levels (.code depth) s = marked := by simpa using hmarked []
  rw [hmarked, hself]

theorem levels_inside {s : List Char} (h : Nested s) (depth : Nat) :
    levels (.code (depth + 1)) s = inside s := by
  obtain ⟨marked, hmarked, hdeep⟩ := exists_levels h (depth + 1)
  rw [← hdeep (Nat.succ_pos depth)]
  simpa using hmarked []

/-! ## What lies outside of everything -/

theorem not_topLevel_of_over {P : Char → Prop} {s : String} (h : Over P s) {c : Char} (hc : ¬ P c) :
    ¬ TopLevel c s := fun htop => hc (h c htop.mem)

theorem topLevel_append {a b : String} (ha : Nested a.toList) {c : Char} :
    TopLevel c (a ++ b) ↔ TopLevel c a ∨ TopLevel c b := by
  rw [TopLevel, String.toList_append, levels_append ha, List.mem_append]
  rfl

theorem not_topLevel_append {a b : String} (hnested : Nested a.toList) {c : Char}
    (ha : ¬ TopLevel c a) (hb : ¬ TopLevel c b) : ¬ TopLevel c (a ++ b) := by
  rw [topLevel_append hnested, not_or]
  exact ⟨ha, hb⟩

theorem not_topLevel_join {sep : String} (hsep : Nested sep.toList) {c : Char}
    (hc : ¬ TopLevel c sep) {parts : List String} (hnested : ∀ p ∈ parts, Nested p.toList)
    (hparts : ∀ p ∈ parts, ¬ TopLevel c p) : ¬ TopLevel c (join sep parts) := by
  induction parts with
  | nil => simp [TopLevel, join]
  | cons p rest ih =>
    obtain ⟨hp, hrest⟩ := List.forall_mem_cons.1 hnested
    obtain ⟨hpart, hparts⟩ := List.forall_mem_cons.1 hparts
    cases rest with
    | nil => rwa [join_singleton]
    | cons q rest =>
      rw [join_cons_cons]
      exact not_topLevel_append hp hpart (not_topLevel_append hsep hc (ih hrest hparts))

/-- Between brackets nothing lies outside of everything. -/
theorem not_topLevel_group (b : Bracket) {s : List Char} (h : Nested s) (c : Char) :
    (c, true) ∉ levels (.code 0) (b.opening :: (s ++ [b.closing])) := by
  rw [levels_opening, levels_append h, levels_inside h, levels_closing]
  simp [inside]

theorem not_topLevel_paren {s : String} (h : Nested s.toList) (c : Char) :
    ¬ TopLevel c ("(" ++ s ++ ")") := by
  rw [TopLevel, String.toList_append, String.toList_append]
  exact not_topLevel_group .round h c

theorem not_topLevel_braces {s : String} (h : Nested s.toList) (c : Char) :
    ¬ TopLevel c ("\x7b" ++ s ++ "\x7d") := by
  rw [TopLevel, String.toList_append, String.toList_append]
  exact not_topLevel_group .brace h c

theorem not_topLevel_quoted (s : String) (c : Char) : ¬ TopLevel c (quoted s) := by
  have hlevels : levels (.code 0) ('\'' :: (escape s.toList ++ ['\''])) =
      ('\'', false) :: (inside (escape s.toList ++ ['\'']) ++ []) :=
    congrArg (('\'', false) :: ·) (levels_quoted 0 s.toList [])
  rw [TopLevel, quoted, String.toList_ofList, hlevels]
  simp [inside]

/-- Of a comment only the break after it lies outside of everything. -/
theorem not_topLevel_comment {c : Comment} (h : c.Guarded) (inline : Bool) {mark : Char}
    (hmark : mark ≠ '\n') : ¬ TopLevel mark (c.render inline) := by
  obtain ⟨s, hs, htext⟩ := Comment.exists_render h inline
  have hstar : Inert ['*'] := by decide
  have hlevels : levels (.code 0) (c.render inline).toList =
      ('/', false) :: ('*', false) :: (inside ('*' :: s ++ ['*', '/']) ++ [('\n', true)]) := by
    rw [htext]
    exact congrArg (('/', false) :: ('*', false) :: ·) (levels_comment 0 (hstar.append hs).1 ['\n'])
  rw [TopLevel, hlevels]
  simp [inside, hmark]

/-! ## Unions with `null` -/

/-- A nested text that is `null` or ends with it after a bar is a union with it. -/
theorem null_mem_alternatives {s : String} (h : Nested s.toList)
    (hnull : s = "null" ∨ endsWith s "| null" = true) : "null" ∈ alternatives s := by
  rcases hnull with rfl | hends
  · decide
  · obtain ⟨before, hbefore⟩ := endsWith_iff.1 hends
    have hword : "| null".toList.all isBare = true := by decide
    rw [← hbefore] at h
    have hlevels : levels (.code 0) s.toList =
        levels (.code 0) before ++ ('|', true) :: levels (.code 0) " null".toList := by
      rw [← hbefore, levels_append (nested_of_append h hword)]
      rfl
    rw [alternatives, hlevels, List.splitOnP_append_cons _ _ (by decide), List.map_append]
    exact List.mem_append_right _ (by decide)

end Text

end ApiTypes

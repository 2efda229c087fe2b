import ApiTypes.Path
import Mathlib.Data.List.DropRight
import Mathlib.Data.List.Infix

/-!
# Paths and their segments

* `Path.Plain` : what a segment of a path can be; `segments_glue`, `segments_join` : the segments of
  a path made of some, and of one path taken from another;
* `Path.Reduced` : segments of which no `..` can be removed; `foldl_descend` : going along them keeps
  them all;
* `normalize_normalize`, `absolute_of_isNormal` : a normalized path is left as it is;
* `reduced_join_relative` : the way from a directory to a path leads there.
-/

namespace ApiTypes

/-! ## Pieces between separators -/

namespace Text

variable {sep : Char}

theorem cut_ne_nil (cs : List Char) : cut sep cs ≠ [] := by
  cases cs with
  | nil => simp [cut]
  | cons c rest =>
    rw [cut]
    split_ifs
    · simp
    · split <;> simp

theorem not_mem_of_mem_cut {cs piece : List Char} (h : piece ∈ cut sep cs) : sep ∉ piece := by
  induction cs generalizing piece with
  | nil =>
    obtain rfl : piece = [] := by simpa [cut] using h
    simp
  | cons c rest ih =>
    rw [cut] at h
    split_ifs at h with hc
    · rcases List.mem_cons.1 h with rfl | h
      · simp
      · exact ih h
    · cases hrest : cut sep rest with
      | nil => exact absurd hrest (cut_ne_nil rest)
      | cons first pieces =>
        rw [hrest] at h ih
        rcases List.mem_cons.1 h with rfl | h
        · rw [List.mem_cons, not_or]
          exact ⟨Ne.symm hc, ih (List.mem_cons_self ..)⟩
        · exact ih (List.mem_cons_of_mem _ h)

theorem mem_of_mem_cut {cs piece : List Char} (h : piece ∈ cut sep cs) : piece ⊆ cs := by
  induction cs generalizing piece with
  | nil =>
    obtain rfl : piece = [] := by simpa [cut] using h
    exact List.nil_subset _
  | cons c rest ih =>
    rw [cut] at h
    split_ifs at h
    · rcases List.mem_cons.1 h with rfl | h
      · exact List.nil_subset _
      · exact fun d hd => List.mem_cons_of_mem _ (ih h hd)
    · cases hrest : cut sep rest with
      | nil => exact absurd hrest (cut_ne_nil rest)
      | cons first pieces =>
        rw [hrest] at h ih
        rcases List.mem_cons.1 h with rfl | h
        · exact List.cons_subset_cons c (ih (List.mem_cons_self ..))
        · exact fun d hd => List.mem_cons_of_mem _ (ih (List.mem_cons_of_mem _ h) hd)

theorem exists_mem_cut {cs : List Char} {c : Char} (h : c ∈ cs) (hc : c ≠ sep) :
    ∃ piece ∈ cut sep cs, c ∈ piece := by
  induction cs with
  | nil => cases h
  | cons d rest ih =>
    rw [cut]
    split_ifs with hd
    · have hrest := (List.mem_cons.1 h).resolve_left fun heq => hc (heq.trans hd)
      obtain ⟨piece, hpiece, hin⟩ := ih hrest
      exact ⟨piece, List.mem_cons_of_mem _ hpiece, hin⟩
    · cases hcut : cut sep rest with
      | nil => exact absurd hcut (cut_ne_nil rest)
      | cons first pieces =>
        rw [hcut] at ih
        rcases List.mem_cons.1 h with rfl | h
        · exact ⟨c :: first, List.mem_cons_self .., List.mem_cons_self ..⟩
        · obtain ⟨piece, hpiece, hin⟩ := ih h
          rcases List.mem_cons.1 hpiece with rfl | hpiece
          · exact ⟨d :: piece, List.mem_cons_self .., List.mem_cons_of_mem _ hin⟩
          · exact ⟨piece, List.mem_cons_of_mem _ hpiece, hin⟩

/-- A separator divides the pieces before it from those after it. -/
theorem cut_append_sep (before after : List Char) :
    cut sep (before ++ sep :: after) = cut sep before ++ cut sep after := by
  induction before with
  | nil => simp [cut]
  | cons c rest ih =>
    rw [List.cons_append, cut, cut, ih]
    split_ifs
    · rfl
    · cases hrest : cut sep rest with
      | nil => exact absurd hrest (cut_ne_nil rest)
      | cons first pieces => rfl

theorem cut_of_not_mem {cs : List Char} (h : sep ∉ cs) : cut sep cs = [cs] := by
  induction cs with
  | nil => rfl
  | cons c rest ih =>
    rw [List.mem_cons, not_or] at h
    rw [cut, if_neg (Ne.symm h.1), ih h.2]

end Text

namespace Path

/-! ## Segments -/

/-- What a segment can be. -/
def Plain (s : List Char) : Prop := s ≠ [] ∧ s ≠ ['.'] ∧ '/' ∉ s

theorem plain_of_mem_segments {cs s : List Char} (h : s ∈ segments cs) : Plain s := by
  obtain ⟨hcut, htest⟩ := List.mem_filter.1 h
  obtain ⟨hne, hdot⟩ := of_decide_eq_true htest
  exact ⟨hne, hdot, Text.not_mem_of_mem_cut hcut⟩

theorem segments_append_slash (a b : List Char) :
    segments (a ++ '/' :: b) = segments a ++ segments b := by
  rw [segments, Text.cut_append_sep, List.filter_append]
  rfl

theorem segments_cons_slash (cs : List Char) : segments ('/' :: cs) = segments cs :=
  segments_append_slash [] cs

theorem segments_dot_slash (cs : List Char) : segments ('.' :: '/' :: cs) = segments cs := by
  have hdot : segments ['.'] = [] := by decide
  rw [← List.singleton_append, segments_append_slash, hdot, List.nil_append]

theorem segments_of_plain {s : List Char} (h : Plain s) : segments s = [s] := by
  rw [segments, Text.cut_of_not_mem h.2.2, List.filter_singleton, decide_eq_true ⟨h.1, h.2.1⟩]
  rfl

theorem segments_glue {ss : List (List Char)} (h : ∀ s ∈ ss, Plain s) : segments (glue ss) = ss := by
  induction ss with
  | nil => rfl
  | cons s rest ih =>
    have hs := segments_of_plain (h s (List.mem_cons_self ..))
    have hrest := ih fun r hr => h r (List.mem_cons_of_mem _ hr)
    cases rest with
    | nil => exact hs
    | cons r rest =>
      rw [glue, segments_append_slash, hs, hrest]
      · rfl
      · simp

/-- What is glued of segments begins like the first of them. -/
theorem head?_glue {ss : List (List Char)} (h : ∀ s ∈ ss, Plain s) : (glue ss).head? ≠ some '/' := by
  cases ss with
  | nil => simp [glue]
  | cons s rest =>
    obtain ⟨hne, -, hslash⟩ := h s (List.mem_cons_self ..)
    obtain ⟨c, cs, rfl⟩ := List.exists_cons_of_ne_nil hne
    have hc : c ≠ '/' := fun heq => hslash (heq ▸ List.mem_cons_self ..)
    cases rest <;> simpa [glue] using hc

theorem root_cases (cs : List Char) : root cs = [] ∨ root cs = ['/'] ∨ root cs = ['/', '/'] := by
  unfold root
  split
  · exact .inr (.inl rfl)
  · exact .inr (.inr rfl)
  · exact .inr (.inl rfl)
  · exact .inl rfl

theorem segments_root_append (cs rest : List Char) : segments (root cs ++ rest) = segments rest := by
  rcases root_cases cs with h | h | h <;> rw [h]
  · rfl
  · exact segments_cons_slash rest
  · exact (segments_cons_slash _).trans (segments_cons_slash rest)

theorem root_append {cs rest : List Char} (h : rest.head? ≠ some '/') :
    root (root cs ++ rest) = root cs := by
  cases rest with
  | nil => rcases root_cases cs with hroot | hroot | hroot <;> rw [hroot] <;> rfl
  | cons c rest =>
    have hc : c ≠ '/' := by simpa using h
    rcases root_cases cs with hroot | hroot | hroot <;> rw [hroot] <;> simp [root, hc]

theorem isAbsolute_iff_root {cs : List Char} : isAbsolute cs = true ↔ root cs ≠ [] := by
  unfold root isAbsolute
  split
  · simp
  · simp
  · simp
  · rename_i hno
    cases cs with
    | nil => simp
    | cons c rest =>
      have hc : c ≠ '/' := fun heq => hno rest (heq ▸ rfl)
      simpa using hc

theorem isAbsolute_root_append {cs rest : List Char} (h : rest.head? ≠ some '/') :
    isAbsolute (root cs ++ rest) = isAbsolute cs := by
  rw [Bool.eq_iff_iff, isAbsolute_iff_root, isAbsolute_iff_root, root_append h]

/-- The segments of a path that is taken from another are those of both. -/
theorem segments_join {a b : List Char} (h : isAbsolute b = false) :
    segments (joinChars a b) = segments a ++ segments b := by
  rw [joinChars, if_neg (by simp [h])]
  split_ifs with hend
  · rcases hend with hempty | hslash
    · rw [List.isEmpty_iff.1 hempty]
      rfl
    · obtain ⟨before, rfl⟩ := List.getLast?_eq_some_iff.1 hslash
      rw [List.append_assoc, List.singleton_append, segments_append_slash, segments_append_slash]
      simp [segments, Text.cut]
  · exact segments_append_slash a b

/-! ## Reduced segments -/

/-- Segments, the last one first, of which no `..` can be removed: those that there are stand at the
start of the path, and under a root there are none. -/
structure Reduced (rooted : Bool) (done : List (List Char)) : Prop where
  stacked : ∃ names n, (∀ s ∈ names, s ≠ parent) ∧ done = names ++ List.replicate n parent
  rooted : rooted = true → parent ∉ done

theorem descend_of_ne {rooted : Bool} {done : List (List Char)} {s : List Char} (h : s ≠ parent) :
    descend rooted done s = s :: done := by
  rw [descend.eq_def, if_pos h]

theorem descend_parent_cons (rooted : Bool) (last : List Char) (rest : List (List Char)) :
    descend rooted (last :: rest) parent =
      if last = parent then parent :: last :: rest else rest := by
  rw [descend.eq_def, if_neg (by simp)]

theorem reduced_descend {rooted : Bool} {done : List (List Char)} (h : Reduced rooted done)
    (s : List Char) : Reduced rooted (descend rooted done s) := by
  obtain ⟨⟨names, n, hnames, rfl⟩, hrooted⟩ := h
  by_cases hs : s = parent
  · subst hs
    cases names with
    | nil =>
      cases n with
      | zero =>
        cases rooted with
        | true => exact ⟨⟨[], 0, hnames, rfl⟩, by simp [descend]⟩
        | false => exact ⟨⟨[], 1, hnames, by simp [descend]⟩, by simp⟩
      | succ n =>
        rw [List.nil_append, List.replicate_succ, descend_parent_cons, if_pos rfl]
        refine ⟨⟨[], n + 2, hnames, rfl⟩, fun hroot => ?_⟩
        exact absurd (List.mem_cons_self ..) (hrooted hroot)
    | cons name names =>
      obtain ⟨hname, hnames⟩ := List.forall_mem_cons.1 hnames
      rw [List.cons_append, descend_parent_cons, if_neg hname]
      exact ⟨⟨names, n, hnames, rfl⟩, fun hroot hmem => hrooted hroot (List.mem_cons_of_mem _ hmem)⟩
  · rw [descend_of_ne hs]
    refine ⟨⟨s :: names, n, List.forall_mem_cons.2 ⟨hs, hnames⟩, rfl⟩, fun hroot => ?_⟩
    rw [List.mem_cons, not_or]
    exact ⟨Ne.symm hs, hrooted hroot⟩

theorem reduced_foldl {rooted : Bool} {done : List (List Char)} (h : Reduced rooted done)
    (ss : List (List Char)) : Reduced rooted (ss.foldl (descend rooted) done) := by
  induction ss generalizing done with
  | nil => exact h
  | cons s rest ih => exact ih (reduced_descend h s)

theorem foldl_descend_names (rooted : Bool) (done : List (List Char)) {names : List (List Char)}
    (h : ∀ s ∈ names, s ≠ parent) :
    names.foldl (descend rooted) done = names.reverse ++ done := by
  induction names generalizing done with
  | nil => rfl
  | cons s rest ih =>
    obtain ⟨hs, hrest⟩ := List.forall_mem_cons.1 h
    rw [List.foldl_cons, descend_of_ne hs, ih _ hrest]
    simp

theorem foldl_descend_parents (n : Nat) :
    (List.replicate n parent).foldl (descend false) [] = List.replicate n parent := by
  induction n with
  | zero => rfl
  | succ n ih =>
    rw [List.replicate_succ', List.foldl_append, ih]
    cases n with
    | zero => rfl
    | succ n =>
      rw [List.foldl_cons, List.foldl_nil, List.replicate_succ, descend_parent_cons, if_pos rfl,
        ← List.replicate_succ, ← List.replicate_succ, ← List.replicate_succ']

/-- Going along reduced segments keeps them all. -/
theorem foldl_descend {rooted : Bool} {done : List (List Char)} (h : Reduced rooted done) :
    done.reverse.foldl (descend rooted) [] = done := by
  obtain ⟨⟨names, n, hnames, rfl⟩, hrooted⟩ := h
  have hback : ∀ s ∈ names.reverse, s ≠ parent := fun s hs => hnames s (List.mem_reverse.1 hs)
  rw [List.reverse_append, List.reverse_replicate, List.foldl_append]
  cases rooted with
  | false => rw [foldl_descend_parents, foldl_descend_names _ _ hback, List.reverse_reverse]
  | true =>
    obtain rfl : n = 0 := by
      by_contra hn
      exact hrooted rfl (by simp [hn])
    simp [foldl_descend_names _ _ hback]

theorem reduced_nil (rooted : Bool) : Reduced rooted [] := ⟨⟨[], 0, by simp, rfl⟩, by simp⟩

theorem reduced_reduced (cs : List Char) : Reduced (isAbsolute cs) (reduced cs).reverse := by
  rw [reduced, List.reverse_reverse]
  exact reduced_foldl (reduced_nil _) _

theorem mem_descend {rooted : Bool} {done : List (List Char)} {s r : List Char}
    (h : r ∈ descend rooted done s) : r ∈ done ∨ r = s := by
  by_cases hs : s = parent
  · subst hs
    cases done with
    | nil =>
      cases rooted with
      | true => simp [descend] at h
      | false => exact .inr (by simpa [descend] using h)
    | cons last rest =>
      rw [descend_parent_cons] at h
      split_ifs at h
      · exact (List.mem_cons.1 h).symm
      · exact .inl (List.mem_cons_of_mem _ h)
  · rw [descend_of_ne hs] at h
    exact (List.mem_cons.1 h).symm

theorem mem_segments_of_mem_reduced {cs s : List Char} (h : s ∈ reduced cs) : s ∈ segments cs := by
  have hfold : ∀ (ss done : List (List Char)), s ∈ ss.foldl (descend (isAbsolute cs)) done →
      s ∈ done ∨ s ∈ ss := by
    intro ss
    induction ss with
    | nil => exact fun done hs => .inl hs
    | cons t rest ih =>
      intro done hs
      rcases ih _ hs with hs | hs
      · rcases mem_descend hs with hs | rfl
        · exact .inl hs
        · exact .inr (List.mem_cons_self ..)
      · exact .inr (List.mem_cons_of_mem _ hs)
  rcases hfold _ _ (List.mem_reverse.1 h) with hs | hs
  · cases hs
  · exact hs

theorem plain_of_mem_reduced {cs s : List Char} (h : s ∈ reduced cs) : Plain s :=
  plain_of_mem_segments (mem_segments_of_mem_reduced h)

theorem parent_not_mem_reduced {cs : List Char} (h : isAbsolute cs = true) : parent ∉ reduced cs :=
  fun hmem => (reduced_reduced cs).rooted h (List.mem_reverse.2 hmem)

/-- Segments that are reduced already are all that is left of a path. -/
theorem reduced_eq_segments {cs : List Char} (h : Reduced (isAbsolute cs) (segments cs).reverse) :
    reduced cs = segments cs := by
  have hfold := foldl_descend h
  rw [List.reverse_reverse] at hfold
  rw [reduced, hfold, List.reverse_reverse]

/-! ## Normalized paths -/

theorem normalizeChars_of_isAbsolute {cs : List Char} (h : isAbsolute cs = true) :
    normalizeChars cs = root cs ++ glue (reduced cs) := by
  have hroot := isAbsolute_iff_root.1 h
  rw [normalizeChars, if_neg (by simp [hroot])]

theorem segments_normalizeChars (cs : List Char) : segments (normalizeChars cs) = reduced cs := by
  have hglue : segments (root cs ++ glue (reduced cs)) = reduced cs :=
    (segments_root_append _ _).trans (segments_glue fun _ => plain_of_mem_reduced)
  unfold normalizeChars
  dsimp only
  split_ifs with hempty
  · rw [← hglue, List.isEmpty_iff.1 hempty]
    rfl
  · exact hglue

theorem isAbsolute_normalizeChars (cs : List Char) :
    isAbsolute (normalizeChars cs) = isAbsolute cs := by
  have hglue : isAbsolute (root cs ++ glue (reduced cs)) = isAbsolute cs :=
    isAbsolute_root_append (head?_glue fun _ => plain_of_mem_reduced)
  unfold normalizeChars
  dsimp only
  split_ifs with hempty
  · rw [← hglue, List.isEmpty_iff.1 hempty]
    rfl
  · exact hglue

theorem reduced_normalizeChars (cs : List Char) : reduced (normalizeChars cs) = reduced cs := by
  refine (reduced_eq_segments ?_).trans (segments_normalizeChars cs)
  rw [segments_normalizeChars, isAbsolute_normalizeChars]
  exact reduced_reduced cs

theorem root_normalizeChars (cs : List Char) : root (normalizeChars cs) = root cs := by
  have hglue : root (root cs ++ glue (reduced cs)) = root cs :=
    root_append (head?_glue fun _ => plain_of_mem_reduced)
  unfold normalizeChars
  dsimp only
  split_ifs with hempty
  · rw [← hglue, List.isEmpty_iff.1 hempty]
    rfl
  · exact hglue

theorem normalize_normalize (p : String) : normalize (normalize p) = normalize p := by
  rw [normalize, normalize, String.toList_ofList, normalizeChars, root_normalizeChars,
    reduced_normalizeChars, ← normalizeChars]

/-- Normalized paths from a root. -/
structure IsNormal (p : String) : Prop where
  isAbsolute : isAbsolute p.toList = true
  normalize_eq : normalize p = p

theorem isAbsolute_join {a b : List Char} (h : isAbsolute a = true) :
    isAbsolute (joinChars a b) = true := by
  unfold joinChars
  split_ifs with hb
  · exact hb
  all_goals
    cases a with
    | nil => simp [isAbsolute] at h
    | cons c rest => simpa [isAbsolute] using h

theorem isNormal_normalize {p : String} (h : Path.isAbsolute p.toList = true) :
    IsNormal (normalize p) := by
  refine ⟨?_, normalize_normalize p⟩
  rw [normalize, String.toList_ofList, isAbsolute_normalizeChars, h]

theorem isNormal_absolute {cwd : String} (h : Path.isAbsolute cwd.toList = true) (p : String) :
    IsNormal (absolute cwd p) := by
  refine isNormal_normalize ?_
  rw [join, String.toList_ofList]
  exact isAbsolute_join h

theorem absolute_of_isAbsolute {p : String} (h : Path.isAbsolute p.toList = true) (cwd : String) :
    absolute cwd p = normalize p := by
  rw [absolute, join, joinChars, if_pos h, String.ofList_toList]

theorem absolute_of_isNormal {p : String} (h : IsNormal p) (cwd : String) : absolute cwd p = p :=
  (absolute_of_isAbsolute h.isAbsolute cwd).trans h.normalize_eq

namespace IsNormal

variable {p : String}

theorem segments_eq (h : IsNormal p) : segments p.toList = reduced p.toList := by
  have hsegments := segments_normalizeChars p.toList
  rwa [← String.toList_ofList (l := normalizeChars p.toList), ← normalize, h.normalize_eq]
    at hsegments

theorem toList_eq (h : IsNormal p) : p.toList = root p.toList ++ glue (segments p.toList) := by
  rw [h.segments_eq, ← normalizeChars_of_isAbsolute h.isAbsolute,
    ← String.toList_ofList (l := normalizeChars p.toList), ← normalize, h.normalize_eq]

theorem parent_not_mem (h : IsNormal p) : parent ∉ segments p.toList :=
  h.segments_eq ▸ parent_not_mem_reduced h.isAbsolute

theorem tidy_eq (h : IsNormal p) : tidy p = p := by
  have hne : (root p.toList ++ glue (segments p.toList)).isEmpty = false := by
    rw [← h.toList_eq]
    cases hp : p.toList with
    | nil => simpa [hp, Path.isAbsolute] using h.isAbsolute
    | cons c rest => rfl
  rw [tidy, tidyChars, if_neg (by simp [hne]), ← h.toList_eq, String.ofList_toList]

end IsNormal

/-! ## Directories -/

theorem isAbsolute_of_prefix {a b : List Char} (h : a <+: b) (hne : a ≠ [])
    (hb : isAbsolute b = true) : isAbsolute a = true := by
  obtain ⟨rest, rfl⟩ := h
  cases a with
  | nil => exact absurd rfl hne
  | cons c a => simpa [isAbsolute] using hb

/-- The directory of a path from a root is one. -/
theorem isAbsolute_directoryChars {cs : List Char} (h : isAbsolute cs = true) :
    isAbsolute (directoryChars cs) = true := by
  have hslash : '/' ∈ cs := List.mem_of_mem_head? (of_decide_eq_true h)
  have hne : cs.rdropWhile (fun c => decide (c ≠ '/')) ≠ [] := by
    rw [ne_eq, List.rdropWhile_eq_nil_iff]
    exact fun hall => by simpa using hall '/' hslash
  have hhead : isAbsolute (cs.rdropWhile fun c => decide (c ≠ '/')) = true :=
    isAbsolute_of_prefix (List.rdropWhile_prefix _ _) hne h
  change isAbsolute (if ((cs.rdropWhile fun c => decide (c ≠ '/')).rdropWhile
    fun c => decide (c = '/')).isEmpty then _ else _) = true
  split_ifs with hempty
  · exact hhead
  · refine isAbsolute_of_prefix (List.rdropWhile_prefix _ _) ?_ hhead
    exact fun hnil => hempty (List.isEmpty_iff.2 hnil)

/-- A path that is taken from the directory of a path from a root is one from a root too. -/
theorem isAbsolute_join_directory {p : String} (h : isAbsolute p.toList = true) (q : String) :
    isAbsolute (join (directory p) q).toList = true := by
  rw [join, directory, String.toList_ofList, String.toList_ofList]
  exact isAbsolute_join (isAbsolute_directoryChars h)

/-! ## Paths as written -/

theorem segments_tidyChars (cs : List Char) : segments (tidyChars cs) = segments cs := by
  have hglue : segments (root cs ++ glue (segments cs)) = segments cs :=
    (segments_root_append _ _).trans (segments_glue fun _ => plain_of_mem_segments)
  unfold tidyChars
  dsimp only
  split_ifs with hempty
  · rw [← hglue, List.isEmpty_iff.1 hempty]
    rfl
  · exact hglue

theorem root_tidyChars (cs : List Char) : root (tidyChars cs) = root cs := by
  have hglue : root (root cs ++ glue (segments cs)) = root cs :=
    root_append (head?_glue fun _ => plain_of_mem_segments)
  unfold tidyChars
  dsimp only
  split_ifs with hempty
  · rw [← hglue, List.isEmpty_iff.1 hempty]
    rfl
  · exact hglue

/-- A tidy path is made of its root and its segments. -/
theorem tidyChars_congr {a b : List Char} (hroot : root a = root b)
    (hsegments : segments a = segments b) : tidyChars a = tidyChars b := by
  rw [tidyChars, hroot, hsegments, ← tidyChars]

theorem root_of_ne {c : Char} (hc : c ≠ '/') (cs : List Char) : root (c :: cs) = [] :=
  root.eq_4 _ (fun _ h => hc (List.cons.inj h).1) (fun _ h => hc (List.cons.inj h).1)
    fun _ h => hc (List.cons.inj h).1

theorem root_slash_of_ne {c : Char} (hc : c ≠ '/') (cs : List Char) :
    root ('/' :: c :: cs) = ['/'] :=
  root.eq_3 _ (fun _ h => hc (List.cons.inj h).1) fun _ h => hc (List.cons.inj h).1

theorem root_slashes_of_ne {c : Char} (hc : c ≠ '/') (cs : List Char) :
    root ('/' :: '/' :: c :: cs) = ['/', '/'] :=
  root.eq_2 _ fun _ h => hc (List.cons.inj h).1

/-- What follows a path does not change its root, unless slashes meet. -/
theorem root_append_left {a x : List Char} (ha : a ≠ [])
    (hx : x.head? = some '/' → a.getLast? ≠ some '/') : root (a ++ x) = root a := by
  have hend : a.getLast? = some '/' → x.head? ≠ some '/' := fun h h' => hx h' h
  match a with
  | [c] =>
    by_cases hc : c = '/'
    · subst hc
      exact @root_append ['/'] x (hend rfl)
    · rw [root_of_ne hc, List.singleton_append, root_of_ne hc]
  | [c, d] =>
    by_cases hc : c = '/'
    · subst hc
      by_cases hd : d = '/'
      · subst hd
        exact @root_append ['/', '/'] x (hend rfl)
      · rw [root_slash_of_ne hd, List.cons_append, List.singleton_append, root_slash_of_ne hd]
    · rw [root_of_ne hc, List.cons_append, root_of_ne hc]
  | c :: d :: e :: rest =>
    by_cases hc : c = '/'
    · subst hc
      by_cases hd : d = '/'
      · subst hd
        by_cases he : e = '/'
        · subst he
          rfl
        · rw [root_slashes_of_ne he]
          exact root_slashes_of_ne he _
      · rw [root_slash_of_ne hd]
        exact root_slash_of_ne hd _
    · rw [root_of_ne hc, List.cons_append, root_of_ne hc]

/-- A path that is taken from another has its root. -/
theorem root_joinChars (a : List Char) {b : List Char} (h : isAbsolute b = false) :
    root (joinChars a b) = root a := by
  have hhead : b.head? ≠ some '/' := by simpa [isAbsolute] using h
  rw [joinChars, if_neg (by simp [h])]
  by_cases ha : a = []
  · subst ha
    exact @root_append [] b hhead
  · have hne : a.isEmpty = false := by simpa using ha
    split_ifs with hend
    · exact root_append_left ha fun hslash => absurd hslash hhead
    · exact root_append_left ha fun _ hlast => hend (.inr hlast)

/-- The segments and the root of a path below another. -/
theorem segments_below (a : String) {b : String} (h : isAbsolute b.toList = false) :
    segments (below a b).toList = segments a.toList ++ segments b.toList := by
  rw [below, tidy, join, String.toList_ofList, String.toList_ofList, segments_tidyChars,
    segments_join h]

theorem root_below (a : String) {b : String} (h : isAbsolute b.toList = false) :
    root (below a b).toList = root a.toList := by
  rw [below, tidy, join, String.toList_ofList, String.toList_ofList, root_tidyChars,
    root_joinChars _ h]

/-- Paths below others are the same if their roots and all their segments are. -/
theorem below_congr {a b c d : String} (hb : isAbsolute b.toList = false)
    (hd : isAbsolute d.toList = false) (hroot : root a.toList = root c.toList)
    (hsegments : segments a.toList ++ segments b.toList = segments c.toList ++ segments d.toList) :
    below a b = below c d := by
  rw [below, below, tidy, tidy, join, join, String.toList_ofList, String.toList_ofList]
  refine congrArg String.ofList (tidyChars_congr ?_ ?_)
  · rw [root_joinChars _ hb, root_joinChars _ hd, hroot]
  · rw [segments_join hb, segments_join hd, hsegments]

/-! ## The way from a directory to a path -/

/-- A directory below the place that it is taken from. -/
def Downward (p : String) : Prop := isAbsolute p.toList = false ∧ parent ∉ segments p.toList

/-- A text without slashes and dots names a directory right below. -/
theorem downward_of_not_mem {p : String} (hslash : '/' ∉ p.toList) (hdot : '.' ∉ p.toList) :
    Downward p := by
  constructor
  · cases hp : p.toList with
    | nil => rfl
    | cons c rest =>
      have hc : c ≠ '/' := fun heq => hslash (by rw [hp, heq]; exact List.mem_cons_self ..)
      simpa [isAbsolute] using hc
  · intro h
    obtain ⟨hcut, -⟩ := List.mem_filter.1 h
    rw [Text.cut_of_not_mem hslash, List.mem_singleton] at hcut
    exact hdot (hcut ▸ List.mem_cons_self ..)

theorem dropCommon_eq (as bs : List (List Char)) :
    ∃ common, as = common ++ (dropCommon as bs).1 ∧ bs = common ++ (dropCommon as bs).2 := by
  induction as generalizing bs with
  | nil => exact ⟨[], by simp [dropCommon], by simp [dropCommon]⟩
  | cons a as ih =>
    cases bs with
    | nil => exact ⟨[], by simp [dropCommon], by simp [dropCommon]⟩
    | cons b bs =>
      rw [dropCommon]
      split_ifs with heq
      · obtain ⟨common, has, hbs⟩ := ih bs
        exact ⟨a :: common, congrArg (a :: ·) has, heq ▸ congrArg (a :: ·) hbs⟩
      · exact ⟨[], rfl, rfl⟩

/-- The way from a directory: up from what it has alone, and down. -/
def way (target start : List Char) : List (List Char) :=
  List.replicate (dropCommon (reduced start) (reduced target)).1.length parent ++
    (dropCommon (reduced start) (reduced target)).2

theorem plain_of_mem_way {target start s : List Char} (h : s ∈ way target start) : Plain s := by
  rcases List.mem_append.1 h with h | h
  · rw [List.eq_of_mem_replicate h]
    exact ⟨by decide, by decide, by decide⟩
  · obtain ⟨common, -, htarget⟩ := dropCommon_eq (reduced start) (reduced target)
    have hmem : s ∈ reduced target := htarget ▸ List.mem_append_right _ h
    exact plain_of_mem_reduced hmem

theorem segments_relativeChars (target start : List Char) :
    segments (relativeChars target start) = way target start := by
  have hglue : segments (glue (way target start)) = way target start :=
    segments_glue fun _ => plain_of_mem_way
  unfold relativeChars
  dsimp only
  split_ifs with hempty
  · exact (List.isEmpty_iff.1 hempty).symm
  · exact hglue

theorem isAbsolute_relativeChars (target start : List Char) :
    isAbsolute (relativeChars target start) = false := by
  have hglue : (glue (way target start)).head? ≠ some '/' := head?_glue fun _ => plain_of_mem_way
  unfold relativeChars
  dsimp only
  split_ifs
  · rfl
  · exact decide_eq_false hglue

theorem isAbsolute_join_of_relative {a b : List Char} (ha : isAbsolute a = false)
    (hb : isAbsolute b = false) : isAbsolute (joinChars a b) = false := by
  rw [joinChars, if_neg (by simp [hb])]
  cases a with
  | nil => exact hb
  | cons c rest => split_ifs <;> exact ha

/-- As many steps up as there are names take them all away. -/
theorem foldl_descend_up (rooted : Bool) {names : List (List Char)} (h : ∀ s ∈ names, s ≠ parent)
    (done : List (List Char)) :
    (List.replicate names.length parent).foldl (descend rooted) (names ++ done) = done := by
  induction names with
  | nil => rfl
  | cons s rest ih =>
    obtain ⟨hs, hrest⟩ := List.forall_mem_cons.1 h
    rw [List.length_cons, List.replicate_succ, List.foldl_cons, List.cons_append,
      descend_parent_cons, if_neg hs]
    exact ih hrest

/-- Whatever goes the way from a directory below to a path leads to that path. -/
theorem reduced_join_relative {start : String} (hstart : Downward start) (target : List Char)
    {path : List Char} (hrelative : isAbsolute path = false)
    (hpath : segments path = way target start.toList) :
    reduced (joinChars start.toList path) = reduced target := by
  obtain ⟨hbelow, hnames⟩ := hstart
  have hne : ∀ s ∈ segments start.toList, s ≠ parent := fun s hs heq => hnames (heq ▸ hs)
  have hreduced : reduced start.toList = segments start.toList :=
    reduced_eq_segments ⟨⟨(segments start.toList).reverse, 0,
      fun s hs => hne s (List.mem_reverse.1 hs), by simp⟩, fun h => by simp [hbelow] at h⟩
  obtain ⟨common, hups, hdowns⟩ := dropCommon_eq (reduced start.toList) (reduced target)
  rw [way] at hpath
  generalize (dropCommon (reduced start.toList) (reduced target)).1 = ups at hpath hups
  generalize (dropCommon (reduced start.toList) (reduced target)).2 = downs at hpath hdowns
  rw [hreduced] at hups
  have hcommon : ∀ s ∈ common, s ≠ parent := fun s hs =>
    hne s (hups ▸ List.mem_append_left _ hs)
  have hback : ∀ s ∈ ups.reverse, s ≠ parent := fun s hs =>
    hne s (hups ▸ List.mem_append_right _ (List.mem_reverse.1 hs))
  -- all that the way passes is the directory, the steps up, and the steps down
  have hup : (List.replicate ups.length parent).foldl (descend false)
      (ups.reverse ++ common.reverse) = common.reverse := by
    have hstep := foldl_descend_up false hback common.reverse
    rwa [List.length_reverse] at hstep
  have hdown : downs.foldl (descend false) common.reverse = (reduced target).reverse := by
    have hall : (reduced target).foldl (descend false) [] = (reduced target).reverse := by
      have htarget : Reduced false (reduced target).reverse :=
        ⟨(reduced_reduced target).stacked, by simp⟩
      simpa using foldl_descend htarget
    rw [hdowns, List.foldl_append, foldl_descend_names _ _ hcommon, List.append_nil, ← hdowns]
      at hall
    exact hall
  rw [reduced, isAbsolute_join_of_relative hbelow hrelative, segments_join hrelative, hpath,
    List.foldl_append, List.foldl_append, foldl_descend_names _ _ hne, List.append_nil, hups,
    List.reverse_append, hup, hdown, List.reverse_reverse]

end Path
end ApiTypes

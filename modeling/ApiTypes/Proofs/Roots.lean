import ApiTypes.Name
import ApiTypes.Proofs.Ownership
import ApiTypes.Proofs.Paths
import Mathlib.Data.String.Basic

/-!
# Paths under a root

* `Path.Inside` : paths that do not lead out of the folder that they are taken from;
* `Path.absolute_eq`, `Path.absolute_inj` : such a path taken from a root, which adds its own
  segments to those of the root;
* `Path.rebase` : the same path taken from another root;
* `Path.Inner` : the paths of the files in a folder, each in one way. One of them taken from a root
  starts with `Path.lead`, whatever the path;
* `Path.absolute_join_directory` : from the folder of a file the way is the same under every root;
* `Path.absolute_le`, `Reference.documentName_absolute`, `Name.folder_absolute` : order and names of
  files do not depend on the root. Where there is a `#` in the root, the name of a document does.
-/

namespace ApiTypes

namespace Path

/-! ## Ways inside a folder -/

/-- A path that is taken from a folder and does not lead out of it. -/
structure Inside (p : String) : Prop where
  relative : isAbsolute p.toList = false
  stays : parent ∉ reduced p.toList

/-- Where a way has led out of a folder, it does not come back. -/
theorem parent_mem_foldl {ss done : List (List Char)} (h : parent ∈ done) :
    parent ∈ ss.foldl (descend false) done := by
  induction ss generalizing done with
  | nil => exact h
  | cons s rest ih =>
    refine ih ?_
    by_cases hs : s = parent
    · subst hs
      cases done with
      | nil => cases h
      | cons last done =>
        rw [descend_parent_cons]
        split_ifs with hlast
        · exact List.mem_cons_self ..
        · exact (List.mem_cons.1 h).resolve_left (Ne.symm hlast)
    · rw [descend_of_ne hs]
      exact List.mem_cons_of_mem _ h

/-- A way that does not lead out of a folder is the same below another. -/
theorem foldl_descend_append {ss done : List (List Char)}
    (h : parent ∉ ss.foldl (descend false) done) (rooted : Bool) (below : List (List Char)) :
    ss.foldl (descend rooted) (done ++ below) = ss.foldl (descend false) done ++ below := by
  induction ss generalizing done with
  | nil => rfl
  | cons s rest ih =>
    rw [List.foldl_cons] at h
    have hnext : parent ∉ descend false done s := fun hmem => h (parent_mem_foldl hmem)
    have hstep : descend rooted (done ++ below) s = descend false done s ++ below := by
      by_cases hs : s = parent
      · subst hs
        cases done with
        | nil => exact absurd (List.mem_singleton_self _) hnext
        | cons last done =>
          rw [descend_parent_cons] at hnext ⊢
          rw [List.cons_append, descend_parent_cons]
          split_ifs at hnext ⊢
          · exact absurd (List.mem_cons_self ..) hnext
          · rfl
      · rw [descend_of_ne hs, descend_of_ne hs]
        rfl
    rw [List.foldl_cons, List.foldl_cons, hstep, ih h]

theorem reduced_append {a : List Char} (ha : isAbsolute a = true) {base ss : List (List Char)}
    (hsegments : segments a = base ++ ss) (hbase : ∀ s ∈ base, s ≠ parent)
    (h : parent ∉ ss.foldl (descend false) []) :
    reduced a = base ++ (ss.foldl (descend false) []).reverse := by
  have hstays := foldl_descend_append h true base.reverse
  rw [List.nil_append] at hstays
  rw [reduced, ha, hsegments, List.foldl_append, foldl_descend_names _ _ hbase, List.append_nil,
    hstays, List.reverse_append, List.reverse_reverse]

theorem foldl_segments {p : String} (h : isAbsolute p.toList = false) :
    (segments p.toList).foldl (descend false) [] = (reduced p.toList).reverse := by
  rw [reduced, h, List.reverse_reverse]

namespace Inside

variable {p : String} (h : Inside p)
include h

theorem stays_foldl : parent ∉ (segments p.toList).foldl (descend false) [] := by
  rw [foldl_segments h.relative, List.mem_reverse]
  exact h.stays

end Inside

/-! ## Paths taken from a root -/

section
variable {root : String} (hroot : isAbsolute root.toList = true)
include hroot

/-- A path that is taken from a root has the segments of both. -/
theorem reduced_join {p : String} (h : Inside p) :
    reduced (joinChars root.toList p.toList) = reduced root.toList ++ reduced p.toList := by
  have hstays := foldl_descend_append h.stays_foldl true (reduced root.toList).reverse
  have hrooted : (segments root.toList).foldl (descend true) [] = (reduced root.toList).reverse := by
    rw [reduced, hroot, List.reverse_reverse]
  rw [List.nil_append] at hstays
  rw [reduced, isAbsolute_join hroot, segments_join h.relative, List.foldl_append, hrooted, hstays,
    List.reverse_append, List.reverse_reverse, foldl_segments h.relative, List.reverse_reverse]

theorem absolute_eq {p : String} (h : Inside p) : absolute root p =
    String.ofList (ApiTypes.Path.root root.toList ++
      glue (reduced root.toList ++ reduced p.toList)) := by
  rw [absolute, normalize, join, String.toList_ofList,
    normalizeChars_of_isAbsolute (isAbsolute_join hroot), root_joinChars _ h.relative,
    reduced_join hroot h]

theorem segments_absolute {p : String} (h : Inside p) :
    segments (absolute root p).toList = reduced root.toList ++ reduced p.toList := by
  rw [absolute, normalize, join, String.toList_ofList, String.toList_ofList,
    segments_normalizeChars, reduced_join hroot h]

/-- A path that is written below the root is taken from it. -/
theorem absolute_below (cwd p : String) : absolute cwd (below root p) = absolute root p := by
  have hbelow : isAbsolute (joinChars root.toList p.toList) = true := isAbsolute_join hroot
  have htidy : isAbsolute (tidyChars (joinChars root.toList p.toList)) = true := by
    rw [isAbsolute_iff_root, root_tidyChars]
    exact isAbsolute_iff_root.1 hbelow
  have hreduced : reduced (tidyChars (joinChars root.toList p.toList)) =
      reduced (joinChars root.toList p.toList) := by
    rw [reduced, reduced, segments_tidyChars, htidy, hbelow]
  have hwritten : (below root p).toList = tidyChars (joinChars root.toList p.toList) := by
    rw [below, tidy, join, String.toList_ofList, String.toList_ofList]
  rw [absolute_of_isAbsolute (hwritten ▸ htidy), normalize, hwritten, absolute, normalize, join,
    String.toList_ofList, normalizeChars_of_isAbsolute htidy, normalizeChars_of_isAbsolute hbelow,
    hreduced, root_tidyChars]

/-- Paths that are the same under a root have the same segments. -/
theorem absolute_inj {p q : String} (hp : Inside p) (hq : Inside q) :
    absolute root p = absolute root q ↔ reduced p.toList = reduced q.toList := by
  constructor
  · intro heq
    have hsegments := segments_absolute hroot hp
    rw [heq, segments_absolute hroot hq] at hsegments
    exact (List.append_cancel_left hsegments).symm
  · intro heq
    rw [absolute_eq hroot hp, absolute_eq hroot hq, heq]

end

/-- A path under a root, taken from another root. -/
def rebase (root root' key : String) : String :=
  String.ofList (ApiTypes.Path.root root'.toList ++
    glue (reduced root'.toList ++ (segments key.toList).drop (reduced root.toList).length))

theorem rebase_absolute {root root' p : String} (hroot : isAbsolute root.toList = true)
    (hroot' : isAbsolute root'.toList = true) (h : Inside p) :
    rebase root root' (absolute root p) = absolute root' p := by
  rw [rebase, segments_absolute hroot h, List.drop_left, absolute_eq hroot' h]

/-! ## Files in a folder -/

/-- The path of a file in a folder: normalized, and not that of the folder itself. -/
structure Inner (p : String) : Prop where
  inside : Inside p
  normalize_eq : normalize p = p
  ne : reduced p.toList ≠ []

theorem reduced_normalize (p : String) : reduced (normalize p).toList = reduced p.toList := by
  rw [normalize, String.toList_ofList, reduced_normalizeChars]

theorem Inside.normalized {p : String} (h : Inside p) : Inside (normalize p) := by
  constructor
  case relative =>
    rw [normalize, String.toList_ofList, isAbsolute_normalizeChars]
    exact h.relative
  case stays =>
    rw [reduced_normalize]
    exact h.stays

theorem Inside.inner {p : String} (h : Inside p) (hne : reduced p.toList ≠ []) :
    Inner (normalize p) := by
  refine ⟨h.normalized, normalize_normalize p, ?_⟩
  rwa [reduced_normalize]

theorem Inner.toList_eq {p : String} (h : Inner p) : p.toList = glue (reduced p.toList) := by
  have hroot : root p.toList = [] := by
    by_contra hne
    have habsolute := isAbsolute_iff_root.2 hne
    rw [h.inside.relative] at habsolute
    cases habsolute
  have hsegments : segments (glue (reduced p.toList)) = reduced p.toList :=
    segments_glue fun _ => plain_of_mem_reduced
  have hne : ¬ (glue (reduced p.toList)).isEmpty := by
    intro hempty
    rw [List.isEmpty_iff.1 hempty] at hsegments
    exact h.ne hsegments.symm
  have hnormal := congrArg String.toList h.normalize_eq
  rw [normalize, String.toList_ofList, normalizeChars, hroot, List.nil_append, if_neg hne] at hnormal
  exact hnormal.symm

/-- Segments with a slash after each. -/
def trail (ss : List (List Char)) : List Char := ss.flatMap (· ++ ['/'])

theorem glue_append (as : List (List Char)) {bs : List (List Char)} (hb : bs ≠ []) :
    glue (as ++ bs) = trail as ++ glue bs := by
  induction as with
  | nil => rfl
  | cons a rest ih =>
    rw [List.cons_append, glue, ih, trail, trail, List.flatMap_cons, List.append_assoc,
      List.append_assoc]
    · rfl
    · simp [hb]

theorem glue_concat (ss : List (List Char)) (last : List Char) :
    glue (ss ++ [last]) = trail ss ++ last :=
  glue_append ss (List.cons_ne_nil last [])

theorem trail_concat (ss : List (List Char)) (last : List Char) :
    trail (ss ++ [last]) = glue (ss ++ [last]) ++ ['/'] := by
  rw [glue_concat, trail, List.flatMap_append, ← trail, List.append_assoc]
  simp

/-- What all paths of files under a root start with. -/
def lead (root : String) : List Char :=
  ApiTypes.Path.root root.toList ++ trail (reduced root.toList)

/-- The path of a file under a root: after what all start with comes the path in the folder. -/
theorem toList_absolute {root p : String} (hroot : isAbsolute root.toList = true) (h : Inner p) :
    (absolute root p).toList = lead root ++ p.toList := by
  rw [absolute_eq hroot h.inside, String.toList_ofList, glue_append _ h.ne, ← h.toList_eq, lead,
    List.append_assoc]

/-! ## The folder of a file -/

/-- What stands before a file ends with a slash, if anything does. -/
theorem getLast?_trail {r : List Char} (hr : ∀ c ∈ r, c = '/') (ss : List (List Char))
    (h : r ++ trail ss ≠ []) : (r ++ trail ss).getLast h = '/' := by
  rcases List.eq_nil_or_concat' ss with rfl | ⟨init, last, rfl⟩
  · have hall : ∀ c ∈ r ++ trail [], c = '/' := by simpa [trail] using hr
    exact hall _ (List.getLast_mem h)
  · simp [trail]

/-- The folder of the path of a file is all but its last segment. -/
theorem directoryChars_glue {r : List Char} (hr : ∀ c ∈ r, c = '/') {ss : List (List Char)}
    (hss : ∀ s ∈ ss, Plain s) {last : List Char} (hlast : '/' ∉ last) :
    directoryChars (r ++ glue (ss ++ [last])) = r ++ glue ss := by
  have hparts : ∀ cs head trimmed, cs.rdropWhile (fun c => decide (c ≠ '/')) = head →
      head.rdropWhile (fun c => decide (c = '/')) = trimmed →
      directoryChars cs = if trimmed.isEmpty then head else trimmed := by
    rintro cs _ _ rfl rfl
    rfl
  have hhead : (r ++ trail ss ++ last).rdropWhile (fun c => decide (c ≠ '/')) = r ++ trail ss := by
    have hname : ∀ c ∈ last.reverse, decide (c ≠ '/') = true := fun c hc =>
      decide_eq_true fun heq => hlast (heq ▸ List.mem_reverse.1 hc)
    rw [List.rdropWhile, List.reverse_append, List.dropWhile_append_of_pos hname,
      ← List.rdropWhile, List.rdropWhile_eq_self_iff]
    intro hne
    simp [getLast?_trail hr ss hne]
  rw [glue_concat, ← List.append_assoc]
  rcases List.eq_nil_or_concat' ss with rfl | ⟨init, name, rfl⟩
  · have htrimmed : (r ++ trail []).rdropWhile (fun c => decide (c = '/')) = [] := by
      rw [List.rdropWhile_eq_nil_iff]
      simpa [trail] using hr
    rw [hparts _ _ _ hhead htrimmed]
    rfl
  · obtain ⟨hne, -, hslash⟩ := hss name (List.mem_append_right _ (List.mem_singleton_self _))
    have htrimmed : (r ++ trail (init ++ [name])).rdropWhile (fun c => decide (c = '/')) =
        r ++ glue (init ++ [name]) := by
      rw [trail_concat, ← List.append_assoc, List.rdropWhile_concat_pos _ _ _ (by simp),
        List.rdropWhile_eq_self_iff]
      intro _ hslashed
      refine hslash (of_decide_eq_true hslashed ▸ ?_)
      simp [glue_concat, hne]
    rw [hparts _ _ _ hhead htrimmed, if_neg (by simp [glue_concat, hne])]

theorem mem_root {cs : List Char} {c : Char} (h : c ∈ ApiTypes.Path.root cs) : c = '/' := by
  rcases root_cases cs with hroot | hroot | hroot <;> rw [hroot] at h
  · cases h
  · exact List.mem_singleton.1 h
  · simpa using h

/-- The folder of a file in a folder: the segments of its path but the last. -/
theorem Inner.exists_directory {p : String} (h : Inner p) : ∃ ss last,
    reduced p.toList = ss ++ [last] ∧ (∀ s ∈ ss, Plain s) ∧ '/' ∉ last ∧
      directoryChars p.toList = glue ss := by
  obtain ⟨ss, last, hreduced⟩ := (List.eq_nil_or_concat' (reduced p.toList)).resolve_left h.ne
  have hplain : ∀ s ∈ ss ++ [last], Plain s := hreduced ▸ fun _ => plain_of_mem_reduced
  have hss : ∀ s ∈ ss, Plain s := fun s hs => hplain s (List.mem_append_left _ hs)
  have hlast := (hplain last (List.mem_append_right _ (List.mem_singleton_self _))).2.2
  refine ⟨ss, last, hreduced, hss, hlast, ?_⟩
  rw [h.toList_eq, hreduced]
  exact @directoryChars_glue [] (by simp) ss hss last hlast

/-- What stays in a folder, taken from a path in it, is not written from the root. -/
theorem Inside.relative_of_join {p file : String} (h : Inside (join p file)) :
    isAbsolute file.toList = false := by
  have hrelative := h.relative
  rw [join, String.toList_ofList, joinChars] at hrelative
  split_ifs at hrelative with hfile
  · rw [hfile] at hrelative
    cases hrelative
  all_goals exact Bool.eq_false_iff.2 hfile

/-- From the folder of a file, the way to another file in the folder is the same under every
root. -/
theorem absolute_join_directory {root p file : String} (hroot : isAbsolute root.toList = true)
    (hp : Inner p) (h : Inside (join (directory p) file)) :
    normalize (join (directory (absolute root p)) file) =
      absolute root (join (directory p) file) := by
  obtain ⟨ss, last, hreduced, hss, hlast, hinner⟩ := hp.exists_directory
  have hfile := h.relative_of_join
  have hbase : ∀ s ∈ reduced root.toList ++ ss, Plain s := fun s hs =>
    (List.mem_append.1 hs).elim plain_of_mem_reduced (hss s)
  have hhead := head?_glue hbase
  have houter : directoryChars (absolute root p).toList =
      ApiTypes.Path.root root.toList ++ glue (reduced root.toList ++ ss) := by
    rw [absolute_eq hroot hp.inside, String.toList_ofList, hreduced, ← List.append_assoc]
    exact directoryChars_glue (fun _ => mem_root) hbase hlast
  -- the way as it is taken in the folder, and as it is taken under the root
  have hway : (join (directory p) file).toList = joinChars (glue ss) file.toList := by
    rw [join, directory, String.toList_ofList, String.toList_ofList, hinner]
  have hstays := h.stays_foldl
  have hfold := foldl_segments h.relative
  rw [hway, segments_join hfile, segments_glue hss] at hstays hfold
  have habsolute : isAbsolute (ApiTypes.Path.root root.toList ++ glue (reduced root.toList ++ ss)) =
      true := by
    rw [isAbsolute_root_append hhead, hroot]
  have hsegments : segments (joinChars (ApiTypes.Path.root root.toList ++
      glue (reduced root.toList ++ ss)) file.toList) =
        reduced root.toList ++ (ss ++ segments file.toList) := by
    rw [segments_join hfile, segments_root_append, segments_glue hbase, List.append_assoc]
  have hnames : ∀ s ∈ reduced root.toList, s ≠ parent := fun s hs heq =>
    parent_not_mem_reduced hroot (heq ▸ hs)
  rw [normalize, join, directory, String.toList_ofList, String.toList_ofList, houter,
    normalizeChars_of_isAbsolute (isAbsolute_join habsolute), root_joinChars _ hfile,
    root_append hhead, reduced_append (isAbsolute_join habsolute) hsegments hnames hstays, hfold,
    List.reverse_reverse, ← hway, absolute_eq hroot h]

/-- From the folder of a file, a way without `..` stays in the folder. -/
theorem inside_join_directory {p file : String} (hp : Inner p) (hfile : Downward file) :
    Inside (join (directory p) file) := by
  obtain ⟨ss, last, hreduced, hss, -, hinner⟩ := hp.exists_directory
  have hway : (join (directory p) file).toList = joinChars (glue ss) file.toList := by
    rw [join, directory, String.toList_ofList, String.toList_ofList, hinner]
  constructor
  case relative =>
    rw [hway]
    exact isAbsolute_join_of_relative (decide_eq_false (head?_glue hss)) hfile.1
  case stays =>
    intro hmem
    have hsegments := mem_segments_of_mem_reduced hmem
    rw [hway, segments_join hfile.1, segments_glue hss] at hsegments
    rcases List.mem_append.1 hsegments with hmem | hmem
    · exact hp.inside.stays (hreduced ▸ List.mem_append_left _ hmem)
    · exact hfile.2 hmem

/-! ## Order and names -/

section
variable {root : String} (hroot : isAbsolute root.toList = true)
include hroot

theorem lead_eq : ∃ before, lead root = before ++ ['/'] := by
  have hne : lead root ≠ [] := fun hempty =>
    isAbsolute_iff_root.1 hroot (List.append_eq_nil_iff.1 hempty).1
  have hlast := getLast?_trail (fun _ => mem_root) (reduced root.toList) hne
  exact ⟨(lead root).dropLast, by rw [← List.dropLast_append_getLast hne]; simp [lead, hlast]⟩

theorem isAbsolute_lead_append (cs : List Char) : isAbsolute (lead root ++ cs) = true := by
  rw [lead]
  rcases root_cases root.toList with h | h | h
  · exact absurd h (isAbsolute_iff_root.1 hroot)
  · rw [h]
    rfl
  · rw [h]
    rfl

omit hroot in
theorem mem_lead {c : Char} (h : c ∈ lead root) : c = '/' ∨ c ∈ root.toList := by
  rcases List.mem_append.1 h with h | h
  · exact .inl (mem_root h)
  · obtain ⟨s, hs, hc⟩ := List.mem_flatMap.1 h
    rcases List.mem_append.1 hc with hc | hc
    · have hcut := (List.mem_filter.1 (mem_segments_of_mem_reduced hs)).1
      exact .inr (Text.mem_of_mem_cut hcut hc)
    · exact .inl (List.mem_singleton.1 hc)

omit hroot in
theorem append_lt_append_iff (as bs cs : List Char) : as ++ bs < as ++ cs ↔ bs < cs := by
  induction as with
  | nil => rfl
  | cons a rest ih => simp [ih]

/-- Files are in the same order under every root. -/
theorem absolute_le {p q : String} (hp : Inner p) (hq : Inner q) :
    absolute root p ≤ absolute root q ↔ p ≤ q := by
  rw [← String.not_lt, ← String.not_lt, String.lt_iff_toList_lt, String.lt_iff_toList_lt,
    toList_absolute hroot hp, toList_absolute hroot hq, append_lt_append_iff]

/-- A file has the same name under every root. -/
theorem name_absolute {p : String} (h : Inner p) : name (absolute root p) = name p := by
  have hsegments : segments p.toList = reduced p.toList := by
    rw [← segments_normalizeChars, ← String.toList_ofList (l := normalizeChars p.toList),
      ← normalize, h.normalize_eq]
  obtain ⟨ss, last, hreduced⟩ := (List.eq_nil_or_concat' (reduced p.toList)).resolve_left h.ne
  rw [name, name, segments_absolute hroot h.inside, hsegments, hreduced, ← List.append_assoc,
    List.getLast?_concat, List.getLast?_concat]

end

/-- What follows the last slash does not depend on what stands before another. -/
theorem baseChars_append (before cs : List Char) :
    baseChars (before ++ '/' :: cs) = baseChars cs := by
  have hstop : ∀ ds : List Char, (ds ++ '/' :: before.reverse).takeWhile (· ≠ '/') =
      ds.takeWhile (· ≠ '/') := by
    intro ds
    induction ds with
    | nil => rfl
    | cons d rest ih => rw [List.cons_append, List.takeWhile_cons, List.takeWhile_cons, ih]
  rw [baseChars, baseChars, List.reverse_append, List.reverse_cons, List.append_assoc,
    List.singleton_append, hstop]

/-- A text with a slash for each backslash. -/
def slashed (cs : List Char) : List Char := cs.map fun c => if c = '\\' then '/' else c

/-- A path has a name if it has any character but slashes, backslashes and dots. -/
theorem segments_slashed_ne_nil {cs : List Char} {c : Char} (hc : c ∈ cs) (hslash : c ≠ '/')
    (hback : c ≠ '\\') (hdot : c ≠ '.') : segments (slashed cs) ≠ [] := by
  have hmem : c ∈ slashed cs := List.mem_map.2 ⟨c, hc, if_neg hback⟩
  obtain ⟨piece, hpiece, hin⟩ := Text.exists_mem_cut hmem hslash
  have hkept : piece ≠ [] ∧ piece ≠ ['.'] :=
    ⟨List.ne_nil_of_mem hin, fun heq => hdot (by simpa [heq] using hin)⟩
  exact List.ne_nil_of_mem (List.mem_filter.2 ⟨hpiece, decide_eq_true hkept⟩)

end Path

theorem Text.breakAt_append {sep : Char} {before : List Char} (h : sep ∉ before) (cs : List Char) :
    breakAt sep (before ++ cs) = (breakAt sep cs).map (Prod.map (before ++ ·) id) := by
  induction before with
  | nil =>
    rw [List.nil_append]
    cases breakAt sep cs <;> rfl
  | cons c rest ih =>
    rw [List.mem_cons, not_or] at h
    rw [List.cons_append, breakAt, if_neg (Ne.symm h.1), ih h.2, Option.map_map]
    rfl

theorem Pointer.toList_split (ref : String) : (split ref).1.toList =
    ((Text.breakAt '#' ref.toList).map Prod.fst).getD ref.toList := by
  unfold split
  split
  · rename_i h
    rw [h, String.toList_ofList]
    rfl
  · rename_i h
    rw [h]
    rfl

section
variable {root p : String} (hroot : Path.isAbsolute root.toList = true) (hp : Path.Inner p)
include hroot hp

/-- What a reference names is the same under every root that has no `#`. -/
theorem Pointer.split_absolute (hmark : '#' ∉ root.toList) :
    (split (Path.absolute root p)).1.toList = Path.lead root ++ (split p).1.toList := by
  have hlead : '#' ∉ Path.lead root := fun hmem =>
    (Path.mem_lead hmem).elim (by decide) hmark
  rw [toList_split, toList_split, Path.toList_absolute hroot hp, Text.breakAt_append hlead]
  cases Text.breakAt '#' p.toList <;> rfl

/-- The name of a document is the same under every root that has no `#`. -/
theorem Reference.documentName_absolute (hmark : '#' ∉ root.toList) :
    documentName (Pointer.split (Path.absolute root p)).1 =
      .ok (Path.stem (String.ofList (Path.slashed (Pointer.split p).1.toList))) := by
  have hpart := Pointer.split_absolute hroot hp hmark
  generalize (Pointer.split (Path.absolute root p)).1 = part at hpart
  have hweb : Url.isWeb part = false := by
    refine Url.isWeb_of_isAbsolute ?_
    rw [hpart]
    exact Path.isAbsolute_lead_append hroot _
  have hbase : Path.baseChars (Path.slashed part.toList) =
      Path.baseChars (Path.slashed (Pointer.split p).1.toList) := by
    obtain ⟨before, hlead⟩ := Path.lead_eq hroot
    rw [hpart, hlead, Path.slashed, List.map_append, List.map_append, List.append_assoc]
    exact Path.baseChars_append _ _
  have hname : documentName part = .ok (Path.stem (String.ofList (Path.slashed part.toList))) := by
    unfold documentName
    rw [hweb]
    rfl
  rw [hname, Path.stem, Path.stem, String.toList_ofList, String.toList_ofList, Path.stemChars,
    Path.stemChars, hbase]

/-- So is the name of its folder, if its path has a name for it. -/
theorem Name.folder_absolute (hname : Path.segments (Path.slashed p.toList) ≠ []) :
    folder (Path.absolute root p) = folder p := by
  obtain ⟨before, hlead⟩ := Path.lead_eq hroot
  obtain ⟨ss, last, hsegments⟩ := (List.eq_nil_or_concat' _).resolve_left hname
  have hkey : Path.segments (Path.slashed (Path.absolute root p).toList) =
      Path.segments (Path.slashed before) ++ (ss ++ [last]) := by
    rw [Path.toList_absolute hroot hp, hlead, ← hsegments, Path.slashed, List.map_append,
      List.map_append, List.append_assoc, ← Path.slashed]
    exact Path.segments_append_slash _ _
  have hlast : ((Path.segments (Path.slashed (Path.absolute root p).toList)).getLast?.getD []) =
      (Path.segments (Path.slashed p.toList)).getLast?.getD [] := by
    rw [hkey, hsegments, ← List.append_assoc, List.getLast?_concat, List.getLast?_concat]
  unfold folder
  dsimp only
  unfold Path.slashed at hlast
  rw [hlast]

end
end ApiTypes

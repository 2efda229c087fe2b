import ApiTypes.Proofs.CrossImports
import ApiTypes.Proofs.ImportLines

/-!
# Paths of imports

* `Path.Visible` : what names a file or a folder that is not hidden;
* `Path.Leads` : the segments that lead to a folder;
* `Layout.importPath_eq`, `Layout.importPath_cases` : the text of the path to a declaration, by the
  way that it goes;
* `Layout.operationPath` : the path to a declaration in the file of operations;
* `import_paths` : paths of imports lead to the declaration, and begin with `./` or `../` unless
  they go nowhere or but one step up;
* `import_paths_own_folder` : one that goes nowhere.
-/

namespace ApiTypes

namespace Path

/-! ## Folders -/

/-- What names a file or a folder that is not hidden: not empty, without slashes, and with no dot at
its start. -/
def Visible (s : List Char) : Prop := s ≠ [] ∧ '/' ∉ s ∧ s.head? ≠ some '.'

instance (s : List Char) : Decidable (Visible s) :=
  inferInstanceAs (Decidable (s ≠ [] ∧ '/' ∉ s ∧ s.head? ≠ some '.'))

/-- A path that leads to a folder by the names of folders, or is the dot that stands for the folder
it is taken from. -/
inductive Leads : String → List (List Char) → Prop
  | here : Leads "." []
  | below {ss : List (List Char)} (h : ∀ s ∈ ss, Visible s) : Leads (String.ofList (glue ss)) ss

theorem Visible.plain {s : List Char} (h : Visible s) : Plain s := by
  refine ⟨h.1, ?_, h.2.1⟩
  rintro rfl
  exact h.2.2 rfl

theorem Visible.ne_parent {s : List Char} (h : Visible s) : s ≠ parent := by
  rintro rfl
  exact h.2.2 rfl

theorem Visible.isAbsolute {s : List Char} (h : Visible s) : isAbsolute s = false :=
  decide_eq_false fun hslash => h.2.1 (List.mem_of_mem_head? hslash)

namespace Leads

variable {p : String} {ss : List (List Char)}

theorem visible (h : Leads p ss) : ∀ s ∈ ss, Visible s := by
  cases h with
  | here => simp
  | below hss => exact hss

theorem segments_eq (h : Leads p ss) : segments p.toList = ss := by
  cases h with
  | here => rfl
  | below hss => rw [String.toList_ofList, segments_glue fun s hs => (hss s hs).plain]

theorem isAbsolute (h : Leads p ss) : isAbsolute p.toList = false := by
  cases h with
  | here => rfl
  | below hss =>
    rw [String.toList_ofList]
    exact decide_eq_false (head?_glue fun s hs => (hss s hs).plain)

theorem downward (h : Leads p ss) : Downward p := by
  refine ⟨h.isAbsolute, fun hparent => ?_⟩
  rw [h.segments_eq] at hparent
  exact (h.visible parent hparent).ne_parent rfl

end Leads

/-- Nothing is removed from the segments of a path below. -/
theorem reduced_of_visible {cs : List Char} (habsolute : isAbsolute cs = false)
    (h : ∀ s ∈ segments cs, Visible s) : reduced cs = segments cs := by
  refine reduced_eq_segments ⟨⟨(segments cs).reverse, 0, fun s hs => ?_, by simp⟩, fun hroot => ?_⟩
  · exact (h s (List.mem_reverse.1 hs)).ne_parent
  · rw [habsolute] at hroot
    cases hroot

theorem normalize_congr {p q : String} (hp : isAbsolute p.toList = false)
    (hq : isAbsolute q.toList = false) (h : reduced p.toList = reduced q.toList) :
    normalize p = normalize q := by
  have hroot : ∀ cs, isAbsolute cs = false → root cs = [] := by
    intro cs hcs
    by_contra hne
    rw [isAbsolute_iff_root.2 hne] at hcs
    cases hcs
  rw [normalize, normalize, normalizeChars, normalizeChars, h, hroot _ hp, hroot _ hq]

theorem isAbsolute_join_of_below {p q : String} (hp : isAbsolute p.toList = false)
    (hq : isAbsolute q.toList = false) : isAbsolute (join p q).toList = false := by
  rw [join, String.toList_ofList]
  exact isAbsolute_join_of_relative hp hq

/-- Two paths below with the same segments are one. -/
theorem normalize_of_visible {p q : String} (hp : isAbsolute p.toList = false)
    (hq : isAbsolute q.toList = false) (hvisible : ∀ s ∈ segments p.toList, Visible s)
    (h : segments p.toList = segments q.toList) : normalize p = normalize q := by
  refine normalize_congr hp hq ?_
  rw [reduced_of_visible hp hvisible, reduced_of_visible hq (h ▸ hvisible), h]

/-! ## The way to a path -/

theorem dropCommon_append_left (common more : List (List Char)) :
    dropCommon (common ++ more) common = (more, []) := by
  induction common with
  | nil => cases more <;> rfl
  | cons s rest ih => rw [List.cons_append, dropCommon, if_pos rfl, ih]

section
variable {target : List Char} (start : List Char)

theorem way_eq (target : List Char) : ∃ common ups downs,
    reduced start = common ++ ups ∧ reduced target = common ++ downs ∧
      way target start = List.replicate ups.length parent ++ downs := by
  obtain ⟨common, hups, hdowns⟩ := dropCommon_eq (reduced start) (reduced target)
  exact ⟨common, _, _, hups, hdowns, rfl⟩

/-- The way is empty to the folder itself. -/
theorem way_eq_nil (target : List Char) :
    way target start = [] ↔ reduced start = reduced target := by
  constructor
  · intro h
    obtain ⟨common, ups, downs, hups, hdowns, hway⟩ := way_eq start target
    rw [hway] at h
    obtain ⟨hzero, rfl⟩ := List.append_eq_nil_iff.1 h
    obtain rfl : ups = [] := List.length_eq_zero_iff.1 (by simpa using hzero)
    rw [hups, hdowns]
  · intro h
    have hdrop := dropCommon_append_left (reduced target) []
    rw [List.append_nil] at hdrop
    rw [way, h, hdrop]
    rfl

/-- It is one step up to the folder above. -/
theorem way_eq_parent (h : ∀ s ∈ reduced target, Visible s) :
    way target start = [parent] ↔ ∃ s, reduced start = reduced target ++ [s] := by
  constructor
  · intro hone
    obtain ⟨common, ups, downs, hups, hdowns, hway⟩ := way_eq start target
    rw [hway] at hone
    match ups with
    | [] =>
      obtain rfl : downs = [parent] := hone
      have hvisible := h parent (hdowns ▸ List.mem_append_right _ (List.mem_singleton_self _))
      exact absurd rfl hvisible.ne_parent
    | [s] =>
      obtain rfl : downs = [] := by simpa using hone
      exact ⟨s, by rw [hups, hdowns, List.append_nil]⟩
    | s :: r :: more => simp [List.replicate_succ] at hone
  · rintro ⟨s, hs⟩
    rw [way, hs, dropCommon_append_left]
    rfl

end
end Path

namespace Layout
open ApiTypes.Path

/-! ## Paths of imports -/

section
variable (source : String) {destination name : String}

theorem startsWith_ofList (cs : List Char) (start : String) :
    Text.startsWith (String.ofList cs) start = start.toList.isPrefixOf cs :=
  congrArg (start.toList.isPrefixOf ·) String.toList_ofList

theorem startsWith_dot (cs : List Char) :
    Text.startsWith (String.ofList cs) "." = decide (cs.head? = some '.') := by
  rw [startsWith_ofList]
  cases cs with
  | nil => rfl
  | cons c rest =>
    by_cases hc : c = '.'
    · subst hc
      rfl
    · have hne : ('.' == c) = false := by simpa using Ne.symm hc
      simp [List.isPrefixOf, hc, hne]

theorem head?_glue_cons {s : List Char} (hs : s ≠ []) (rest : List (List Char)) :
    (glue (s :: rest)).head? = s.head? := by
  obtain ⟨c, more, rfl⟩ := List.exists_cons_of_ne_nil hs
  cases rest <;> rfl

/-- A path that begins with a step up is written as it is, any other one with `./` before it. -/
theorem importPath_eq (h : ∀ s ∈ reduced (join destination name).toList, Visible s) :
    importPath source destination name =
      match way (join destination name).toList source.toList with
      | [] => "."
      | s :: rest =>
        if s = parent then String.ofList (glue (s :: rest))
        else "./" ++ String.ofList (glue (s :: rest)) := by
  have hchars : relativeChars (join destination name).toList source.toList =
      if (way (join destination name).toList source.toList).isEmpty then ['.']
      else glue (way (join destination name).toList source.toList) := rfl
  obtain ⟨common, ups, downs, -, hdowns, hway⟩ :=
    way_eq source.toList (join destination name).toList
  have hsteps : ∀ s ∈ way (join destination name).toList source.toList,
      s = parent ∨ Visible s := by
    intro s hs
    rw [hway] at hs
    rcases List.mem_append.1 hs with hs | hs
    · exact .inl (List.eq_of_mem_replicate hs)
    · exact .inr (h s (hdowns ▸ List.mem_append_right _ hs))
  unfold importPath relative
  dsimp only
  rw [hchars, startsWith_dot]
  cases hcase : way (join destination name).toList source.toList with
  | nil => rfl
  | cons s rest =>
    rw [hcase] at hsteps
    have hsome : (if (s :: rest).isEmpty then ['.'] else glue (s :: rest)) = glue (s :: rest) := rfl
    rw [hsome]
    rcases hsteps s (List.mem_cons_self ..) with rfl | hs
    · rw [head?_glue_cons (by decide) rest]
      rfl
    · rw [head?_glue_cons hs.1 rest, decide_eq_false hs.2.2]
      dsimp only
      rw [if_neg hs.ne_parent]
      rfl

/-- The path of an import: a dot from the folder of its own name, two dots from a folder in that,
and else a path that begins with `./` or `../`. -/
theorem importPath_cases (h : ∀ s ∈ reduced (join destination name).toList, Visible s) :
    (reduced source.toList = reduced (join destination name).toList ∧
      importPath source destination name = ".") ∨
    ((∃ s, reduced source.toList = reduced (join destination name).toList ++ [s]) ∧
      importPath source destination name = "..") ∨
    (reduced source.toList ≠ reduced (join destination name).toList ∧
      (∀ s, reduced source.toList ≠ reduced (join destination name).toList ++ [s]) ∧
      (Text.startsWith (importPath source destination name) "./" = true ∨
        Text.startsWith (importPath source destination name) "../" = true)) := by
  have hnil := way_eq_nil source.toList (join destination name).toList
  have hparent := way_eq_parent source.toList h
  have heq := importPath_eq source h
  cases hway : way (join destination name).toList source.toList with
  | nil =>
    rw [hway] at heq
    exact .inl ⟨hnil.1 hway, heq⟩
  | cons s rest =>
    rw [hway] at heq hnil hparent
    dsimp only at heq
    rw [heq]
    by_cases hs : s = parent
    · subst hs
      rw [if_pos rfl]
      cases rest with
      | nil => exact .inr (.inl ⟨hparent.1 rfl, rfl⟩)
      | cons r rest =>
        refine .inr (.inr ⟨fun hsame => ?_, fun t ht => ?_, .inr ?_⟩)
        · exact absurd (hnil.2 hsame) (by simp)
        · exact absurd (hparent.2 ⟨t, ht⟩) (by simp)
        · rw [startsWith_ofList]
          rfl
    · rw [if_neg hs]
      refine .inr (.inr ⟨fun hsame => ?_, fun t ht => ?_, .inl ?_⟩)
      · exact absurd (hnil.2 hsame) (by simp)
      · exact absurd (hparent.2 ⟨t, ht⟩) (by simp [hs])
      · rw [Text.startsWith, String.toList_append]
        rfl

end

/-! ## Where paths lead -/

theorem isAbsolute_name {name : String} (h : name = "" ∨ Visible name.toList) :
    isAbsolute name.toList = false := by
  rcases h with rfl | h
  · rfl
  · exact h.isAbsolute

/-- What is below a folder that is led to, under a name or under none. -/
theorem segments_join_leads {p name : String} {ss : List (List Char)} (hp : Leads p ss)
    (hname : name = "" ∨ Visible name.toList) :
    segments (join p name).toList = ss ++ segments name.toList ∧
      isAbsolute (join p name).toList = false ∧
      ∀ s ∈ segments (join p name).toList, Visible s := by
  have hsegments : segments (join p name).toList = ss ++ segments name.toList := by
    rw [join, String.toList_ofList, segments_join (isAbsolute_name hname), hp.segments_eq]
  refine ⟨hsegments, isAbsolute_join_of_below hp.isAbsolute (isAbsolute_name hname), fun s hs => ?_⟩
  rw [hsegments] at hs
  rcases List.mem_append.1 hs with hs | hs
  · exact hp.visible s hs
  · rcases hname with rfl | hname
    · cases hs
    · rw [segments_of_plain hname.plain, List.mem_singleton] at hs
      exact hs ▸ hname

theorem normalize_importPath {source destination name : String} (hsource : Downward source)
    (h : isAbsolute (join destination name).toList = false) :
    normalize (join source (importPath source destination name)) =
      normalize (join destination name) :=
  normalize_congr (isAbsolute_join_of_below hsource.1 (segments_importPath ..).2) h
    (importPath_leads hsource destination name)

/-! ## Paths in the file of operations -/

/-- The path of an import in the file of operations: from the folder above that of the declarations
to what is found below it. -/
def operationPath (dirs : Folders) (i : Import) : String :=
  importPath targetFolder modelFolder
    (importPath targetFolder (folderOf targetFolder dirs i) i.name)

theorem exists_import {operations : List Operation} {dirs : Folders} {l : ImportLine}
    (h : l ∈ operationImports operations dirs) :
    ∃ i ∈ operations.flatMap (·.imports), l = ⟨i.name, operationPath dirs i⟩ := by
  obtain ⟨line, hline, rfl⟩ := List.mem_map.1 h
  obtain ⟨i, hi, rfl⟩ := List.mem_map.1 hline
  refine ⟨i, (List.mem_filter.1 (firstOfName_subset _ _ hi)).1, ?_⟩
  rw [operationPath]

/-- From the folder that paths are taken from, the way to what is below is what is below. -/
theorem way_here {cs : List Char} : way cs targetFolder.toList = reduced cs := by
  have hhere : reduced targetFolder.toList = [] := rfl
  rw [way, hhere, dropCommon]
  · rfl
  · simp

/-- A path from above the folder of declarations to what is below it. -/
theorem operationPath_leads {dirs : Folders} {i : Import} {ss : List (List Char)}
    (hfolder : Leads (folderOf targetFolder dirs i) ss)
    (hname : i.name = "" ∨ Visible i.name.toList) :
    Text.startsWith (operationPath dirs i) "./" = true ∧
      normalize (join targetFolder (operationPath dirs i)) =
        normalize (join (join modelFolder (folderOf targetFolder dirs i)) i.name) := by
  unfold operationPath
  generalize folderOf targetFolder dirs i = folder at hfolder ⊢
  obtain ⟨hjoin, hbelow, hvisible⟩ := segments_join_leads hfolder hname
  obtain ⟨hway, hrelative⟩ := segments_importPath targetFolder folder i.name
  rw [way_here, reduced_of_visible hbelow hvisible, hjoin] at hway
  generalize importPath targetFolder folder i.name = path at hway hrelative ⊢
  have hmodel : Visible modelFolder.toList := by decide
  have hsegments : segments (join modelFolder path).toList =
      modelFolder.toList :: (ss ++ segments i.name.toList) := by
    rw [join, String.toList_ofList, segments_join hrelative, segments_of_plain hmodel.plain, hway]
    rfl
  have habsolute := isAbsolute_join_of_below hmodel.isAbsolute hrelative
  have hall : ∀ s ∈ segments (join modelFolder path).toList, Visible s := by
    rw [hsegments, ← hjoin]
    exact List.forall_mem_cons.2 ⟨hmodel, hvisible⟩
  constructor
  · have hreduced := reduced_of_visible habsolute hall
    have heq := importPath_eq targetFolder (hreduced ▸ hall)
    rw [way_here, hreduced, hsegments] at heq
    rw [heq]
    dsimp only
    rw [if_neg hmodel.ne_parent, Text.startsWith, String.toList_append]
    rfl
  · rw [normalize_importPath downward_targetFolder habsolute]
    have hplain := isAbsolute_name hname
    have hfolders := isAbsolute_join_of_below hmodel.isAbsolute hfolder.isAbsolute
    refine normalize_of_visible habsolute (isAbsolute_join_of_below hfolders hplain) hall ?_
    rw [hsegments, join, String.toList_ofList, segments_join hplain, join, String.toList_ofList,
      segments_join hfolder.isAbsolute, segments_of_plain hmodel.plain, hfolder.segments_eq,
      List.append_assoc]
    rfl

/-- The folders of documents are led to. -/
theorem Placed.leads {target : String} {done : Folders} {used : List String}
    (h : Placed target done used) {key folder : String}
    (hfolder : Keyed.get? done key = some folder) : ∃ ss, Leads folder ss := by
  by_cases hkey : key = target
  · subst hkey
    obtain rfl : targetFolder = folder := Option.some.inj (h.ofTarget.symm.trans hfolder)
    exact ⟨_, .here⟩
  · obtain ⟨hne, hchars⟩ := h.isFolder key folder hkey hfolder
    have hvisible : Visible folder.toList := by
      refine ⟨fun hnil => hne (String.toList_inj.1 hnil), fun hslash => ?_, fun hdot => ?_⟩
      · exact absurd (hchars _ hslash) (by decide)
      · exact absurd (hchars _ (List.mem_of_mem_head? hdot)) (by decide)
    have hleads : Leads (String.ofList (glue [folder.toList])) [folder.toList] :=
      .below (List.forall_mem_singleton.2 hvisible)
    rw [glue, String.ofList_toList] at hleads
    exact ⟨_, hleads⟩

theorem leads_folderOf (target : String) (keys : List String) (i : Import) :
    ∃ ss, Leads (folderOf targetFolder (folders target keys) i) ss := by
  obtain ⟨used, hplaced⟩ := folders_placed target keys
  unfold folderOf
  split
  · rename_i key _
    cases hkey : Keyed.get? (folders target keys) key with
    | none => exact ⟨_, .here⟩
    | some folder => exact hplaced.leads hkey
  · exact ⟨_, .here⟩

end Layout

/-- The path of an import leads from one folder to what another declares under a name. It begins
with `./` or `../`, unless the folder is what the name leads to, or a folder in that: there the path
is a dot, or two. In the file of operations, where paths are taken once more from above the folder
of declarations, every path leads to its declaration and begins with `./`. -/
theorem import_paths {source destination name : String} {us ds : List (List Char)}
    (hsource : Path.Leads source us) (hdestination : Path.Leads destination ds)
    (hname : Path.Visible name.toList) :
    Path.normalize (Path.join source (Layout.importPath source destination name)) =
        Path.normalize (Path.join destination name) ∧
      ((us = ds ++ [name.toList] ∧ Layout.importPath source destination name = ".") ∨
        ((∃ s, us = ds ++ [name.toList, s]) ∧ Layout.importPath source destination name = "..") ∨
        (us ≠ ds ++ [name.toList] ∧ (∀ s, us ≠ ds ++ [name.toList, s]) ∧
          (Text.startsWith (Layout.importPath source destination name) "./" = true ∨
            Text.startsWith (Layout.importPath source destination name) "../" = true))) ∧
    ∀ config target documents b, Bundle.make config target documents = .ok b →
      (∀ op ∈ b.operations, ∀ i ∈ op.imports, i.name = "" ∨ Path.Visible i.name.toList →
        Text.startsWith (Layout.operationPath b.folders i) "./" = true ∧
        Path.normalize (Path.join Layout.targetFolder (Layout.operationPath b.folders i)) =
          Path.normalize (Path.join (Path.join Layout.modelFolder
            (Layout.folderOf Layout.targetFolder b.folders i)) i.name)) ∧
      ∀ l ∈ Layout.operationImports b.operations b.folders,
        ∃ op ∈ b.operations, ∃ i ∈ op.imports, l = ⟨i.name, Layout.operationPath b.folders i⟩ := by
  obtain ⟨hsegments, habsolute, hvisible⟩ := Layout.segments_join_leads hdestination (.inr hname)
  refine ⟨Layout.normalize_importPath hsource.downward habsolute, ?_,
    fun config target documents b h => ⟨fun op hop i hi hname => ?_, fun l hl => ?_⟩⟩
  · have hreduced := Path.reduced_of_visible habsolute hvisible
    have hcases := Layout.importPath_cases source (hreduced ▸ hvisible)
    rw [hreduced, hsegments, Path.segments_of_plain hname.plain,
      Path.reduced_of_visible hsource.isAbsolute (hsource.segments_eq.symm ▸ hsource.visible),
      hsource.segments_eq] at hcases
    simpa only [List.append_assoc, List.singleton_append] using hcases
  · obtain ⟨-, -, -, hfolders, -⟩ := Bundle.make_ok h
    obtain ⟨ss, hss⟩ := Layout.leads_folderOf target (Bundle.keysOf documents) i
    rw [← hfolders] at hss
    exact Layout.operationPath_leads hss hname
  · obtain ⟨i, hi, rfl⟩ := Layout.exists_import hl
    obtain ⟨op, hop, hi⟩ := List.mem_flatMap.1 hi
    exact ⟨op, hop, i, hi, rfl⟩

theorem leads_pet : Path.Leads "Pet" ["Pet".toList] :=
  .below (show ∀ s ∈ ["Pet".toList], Path.Visible s by decide)

theorem import_paths_pet :
    Path.Leads "Pet" ["Pet".toList] ∧ Path.Leads "." [] ∧ Path.Visible "Tag".toList ∧
    (Text.startsWith (Layout.importPath "Pet" "." "Tag") "./" = true ∨
      Text.startsWith (Layout.importPath "Pet" "." "Tag") "../" = true) ∧
    ∃ b, Bundle.make apiConfig "/api.json" [("/api.json", petDocument)] = .ok b ∧
      ∃ op ∈ b.operations, ∃ i ∈ op.imports, i.name = "GetPetsParams" ∧
        Text.startsWith (Layout.operationPath b.folders i) "./" = true := by
  have htag : Path.Visible "Tag".toList := by decide
  obtain ⟨-, hpaths, hoperations⟩ := import_paths leads_pet .here htag
  refine ⟨leads_pet, .here, htag, ?_, ?_⟩
  · obtain ⟨hown, -⟩ | ⟨⟨s, hinside⟩, -⟩ | ⟨-, -, hpath⟩ := hpaths
    · exact absurd hown (by decide)
    · exact absurd hinside (by simp)
    · exact hpath
  · obtain ⟨b, hb, h⟩ := Except.exists_of_any
      (x := Bundle.make apiConfig "/api.json" [("/api.json", petDocument)])
      (p := fun b => decide (∃ op ∈ b.operations, ∃ i ∈ op.imports, i.name = "GetPetsParams"))
      (by decide +kernel)
    obtain ⟨op, hop, i, hi, hname⟩ := of_decide_eq_true h
    have hvisible : Path.Visible i.name.toList := by
      rw [hname]
      decide
    exact ⟨b, hb, op, hop, i, hi, hname,
      ((hoperations _ _ _ _ hb).1 op hop i hi (.inr hvisible)).1⟩

/-- From the folder of its own name, the path to a declaration is a dot. -/
theorem import_paths_own_folder :
    Path.Leads "Pet" ["Pet".toList] ∧ Path.Leads "." [] ∧ Path.Visible "Pet".toList ∧
      Layout.importPath "Pet" "." "Pet" = "." ∧
      Text.startsWith (Layout.importPath "Pet" "." "Pet") "./" = false ∧
      Text.startsWith (Layout.importPath "Pet" "." "Pet") "../" = false :=
  ⟨leads_pet, .here, by decide, by decide +kernel, by decide +kernel, by decide +kernel⟩

end ApiTypes

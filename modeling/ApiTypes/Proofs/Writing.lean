import ApiTypes.Emission
import ApiTypes.Proofs.Outcome
import Mathlib.Data.List.Nodup
import Mathlib.Data.Set.Insert

/-!
# Writing files

* `FileTree.reach`, `FileTree.spot` : the place at the end of some segments, and the place of the
  file that is written at a path;
* `FileTree.Frame t t' W` : outside the places `W`, `t'` has the files of `t`; `Frame.trans` (union),
  `Frame.mono`;
* `FileTree.writeText_ok` : a text is written at the place of its path and nowhere else;
* `Emission.frame_writeAll`, `Emission.writeAll_ok` : so are several, and where their places differ
  none is lost;
* `Emission.frame_write`, `Emission.write_ok` : so is what a run writes.
-/

namespace ApiTypes

namespace FileTree

/-! ## Places -/

/-- The place at the end of some segments. -/
def reach (here : Place) (ss : List (List Char)) : Place :=
  ss.foldl (fun p s => if s = Path.parent then p.dropLast else p ++ [s]) here

theorem reach_append (here : Place) (ss rest : List (List Char)) :
    reach here (ss ++ rest) = reach (reach here ss) rest :=
  List.foldl_append

/-- Segments other than `..` lead on. -/
theorem reach_names (here : Place) {ss : List (List Char)} (h : ∀ s ∈ ss, s ≠ Path.parent) :
    reach here ss = here ++ ss := by
  induction ss generalizing here with
  | nil => exact (List.append_nil here).symm
  | cons s rest ih =>
    obtain ⟨hs, hrest⟩ := List.forall_mem_cons.1 h
    have hstep : reach here (s :: rest) = reach (here ++ [s]) rest := by
      rw [reach, List.foldl_cons, if_neg hs, reach]
    rw [hstep, ih _ hrest, List.append_assoc, List.singleton_append]

/-- The place of the file that is written at a path. -/
def spot (t : FileTree) (path : String) : Place :=
  reach (t.startOf path.toList) (Path.segments path.toList).dropLast ++
    [(Path.segments path.toList).getLast?.getD []]

theorem spot_ne_nil (t : FileTree) (path : String) : t.spot path ≠ [] :=
  List.append_ne_nil_of_right_ne_nil _ (by simp)

/-- It depends on where the tree is seen from alone. -/
theorem spot_congr {t t' : FileTree} (h : t'.workingFolder = t.workingFolder) (path : String) :
    t'.spot path = t.spot path := by
  unfold spot startOf
  rw [h]

theorem find_put {t : FileTree} {p : Place} (hp : p ≠ []) (e : Entry) (q : Place) :
    FileTree.entry? (t.put p e) q = if p = q then some e else t.entry? q := by
  unfold entry? put
  by_cases hq : q = []
  · have hne : p ≠ q := fun heq => hp (heq.trans hq)
    rw [if_pos hq, if_neg hne, if_pos hq]
  · rw [if_neg hq, if_neg hq, Keyed.get?_put]

/-! ## Frames -/

/-- Outside some places, the files of a tree are those of another, seen from the same folder. -/
structure Frame (t t' : FileTree) (W : Set Place) : Prop where
  workingFolder : t'.workingFolder = t.workingFolder
  file_iff : ∀ p ∉ W, ∀ c, FileTree.entry? t' p = some (.file c) ↔ t.entry? p = some (.file c)

namespace Frame

variable {t t' t'' : FileTree} {V W : Set Place}

theorem refl (t : FileTree) (W : Set Place) : Frame t t W := ⟨rfl, fun _ _ _ => Iff.rfl⟩

theorem mono (h : Frame t t' V) (hsub : V ⊆ W) : Frame t t' W :=
  ⟨h.workingFolder, fun p hp => h.file_iff p fun hmem => hp (hsub hmem)⟩

theorem trans (h : Frame t t' V) (h' : Frame t' t'' W) : Frame t t'' (V ∪ W) where
  workingFolder := h'.workingFolder.trans h.workingFolder
  file_iff p hp c := by
    have hleft := h.file_iff p (fun hmem => hp (.inl hmem)) c
    have hright := h'.file_iff p (fun hmem => hp (.inr hmem)) c
    exact hright.trans hleft

theorem spot_eq (h : Frame t t' W) (path : String) : t'.spot path = t.spot path :=
  spot_congr h.workingFolder path

end Frame

/-- Where there is no file, a folder changes none. -/
theorem frame_put_folder {t : FileTree} {p : Place} (hp : p ≠ []) (hnone : t.entry? p = none) :
    Frame t (t.put p .folder) ∅ where
  workingFolder := rfl
  file_iff q _ c := by
    rw [find_put hp]
    split_ifs with heq
    · subst heq
      simp [hnone]
    · rfl

theorem frame_put_file (t : FileTree) {p : Place} (hp : p ≠ []) (c : Content) :
    Frame t (t.put p (.file c)) {p} where
  workingFolder := rfl
  file_iff q hq d := by
    have hne : p ≠ q := fun heq => hq heq.symm
    rw [find_put hp, if_neg hne]

/-! ## One file -/

/-- Making folders on the way along some segments leads to their end and changes no file. -/
theorem makeFolders_ok {t t' : FileTree} {here p : Place} {ss : List (List Char)}
    (h : t.makeFolders here ss = .ok (t', p)) : p = reach here ss ∧ Frame t t' ∅ := by
  induction ss generalizing t here with
  | nil =>
    obtain ⟨rfl, rfl⟩ := Prod.mk.inj (Except.ok.inj h)
    exact ⟨rfl, .refl t ∅⟩
  | cons s rest ih =>
    rw [makeFolders] at h
    by_cases hparent : s = Path.parent
    · rw [if_pos hparent] at h
      have hstep : reach here (s :: rest) = reach here.dropLast rest := by
        rw [reach, List.foldl_cons, if_pos hparent, reach]
      rw [hstep]
      exact ih h
    · have hstep : reach here (s :: rest) = reach (here ++ [s]) rest := by
        rw [reach, List.foldl_cons, if_neg hparent, reach]
      have hne : here ++ [s] ≠ [] := by simp
      rw [if_neg hparent] at h
      split at h
      · cases h
      rw [hstep]
      dsimp only at h
      split at h
      · exact ih h
      · cases h
      · rename_i hnone
        obtain ⟨hplace, hframe⟩ := ih h
        refine ⟨hplace, ?_⟩
        simpa using (frame_put_folder hne hnone).trans hframe

/-- A text is written at the place of its path and nowhere else. -/
theorem writeText_ok {t t' : FileTree} {path text : String} (h : t.writeText path text = .ok t') :
    Frame t t' {t.spot path} ∧ FileTree.entry? t' (t.spot path) = some (.file (.text text)) := by
  unfold writeText at h
  dsimp only at h
  by_cases hnul : hasNul path.toList = true
  · rw [if_pos hnul] at h
    cases h
  rw [if_neg hnul] at h
  obtain ⟨⟨u, folder⟩, hfolders, h⟩ := Except.bind_eq_ok.1 h
  obtain ⟨rfl, hframe⟩ := makeFolders_ok hfolders
  dsimp only at h
  by_cases hlong : isTooLong ((Path.segments path.toList).getLast?.getD []) = true
  · rw [if_pos hlong] at h
    cases h
  rw [if_neg hlong] at h
  have hput : u.put (t.spot path) (.file (.text text)) = t' := by
    split at h
    · cases h
    · exact Except.ok.inj h
  subst hput
  constructor
  · simpa using hframe.trans (frame_put_file u (t.spot_ne_nil path) (.text text))
  · rw [find_put (t.spot_ne_nil path), if_pos rfl]

end FileTree

namespace Emission

/-! ## Several files -/

variable {t t' : FileTree}

/-- The places of some files. -/
def spots (t : FileTree) (files : List OutputFile) : List Place :=
  files.map fun f => t.spot f.path

theorem spots_congr (h : t'.workingFolder = t.workingFolder) (files : List OutputFile) :
    spots t' files = spots t files :=
  List.map_congr_left fun f _ => FileTree.spot_congr h f.path

/-- Files are written at their places and nowhere else, also where not all can be written. -/
theorem frame_writeAll {files : List OutputFile} {result : Except Fault Unit}
    (h : writeAll t files = (result, t')) : FileTree.Frame t t' {p | p ∈ spots t files} := by
  induction files generalizing t with
  | nil =>
    obtain ⟨-, rfl⟩ := Prod.mk.inj h
    exact .refl t _
  | cons f rest ih =>
    rw [writeAll] at h
    split at h
    · rename_i u hu
      obtain ⟨hfirst, -⟩ := FileTree.writeText_ok hu
      have hrest := ih h
      rw [spots_congr hfirst.workingFolder] at hrest
      refine (hfirst.trans hrest).mono ?_
      rintro p (rfl | hp)
      · exact List.mem_cons_self ..
      · exact List.mem_cons_of_mem _ hp
    · obtain ⟨-, rfl⟩ := Prod.mk.inj h
      exact .refl t _

/-- Where their places differ, each file is there in the end. -/
theorem writeAll_ok {files : List OutputFile} (h : writeAll t files = (.ok (), t'))
    (hapart : (spots t files).Nodup) :
    ∀ f ∈ files, FileTree.entry? t' (t.spot f.path) = some (.file (.text f.text)) := by
  induction files generalizing t with
  | nil => simp
  | cons f rest ih =>
    rw [writeAll] at h
    split at h
    · rename_i u hu
      obtain ⟨hfirst, hentry⟩ := FileTree.writeText_ok hu
      obtain ⟨hnew, hlater⟩ := List.nodup_cons.1 hapart
      have hspots := spots_congr hfirst.workingFolder rest
      have hframe := frame_writeAll h
      rw [hspots] at hframe
      refine List.forall_mem_cons.2 ⟨?_, fun g hg => ?_⟩
      · exact (hframe.file_iff _ hnew _).2 hentry
      · rw [← hfirst.spot_eq g.path]
        exact ih h (hspots ▸ hlater) g hg
    · cases h

theorem writeAll_append {files more : List OutputFile} (h : writeAll t files = (.ok (), t')) :
    writeAll t (files ++ more) = writeAll t' more := by
  induction files generalizing t with
  | nil =>
    obtain ⟨-, rfl⟩ := Prod.mk.inj h
    rfl
  | cons f rest ih =>
    rw [writeAll] at h
    rw [List.cons_append, writeAll]
    split at h
    · exact ih h
    · cases h

/-! ## What a run writes -/

/-- The path of the file of operations. -/
def operationsPath (output : String) : String := Path.below output "operations.ts"

theorem operationsFile_paths {b : Bundle} {output : String} {files : List OutputFile}
    (h : operationsFile b output = .ok files) : ∀ f ∈ files, f.path = operationsPath output := by
  unfold operationsFile at h
  split_ifs at h
  · obtain rfl := Except.ok.inj h
    simp
  · obtain ⟨text, -, h⟩ := Except.bind_eq_ok.1 h
    obtain rfl := Except.ok.inj h
    exact List.forall_mem_singleton.2 rfl

/-- A run writes at the places of its files and nowhere else, also where it breaks off. -/
theorem frame_write {b : Bundle} {output : String} {result : Except Fault (List String)}
    (h : write t b output = (result, t')) :
    FileTree.Frame t t'
      {p | p ∈ spots t (modelFiles b output) ∨ p = t.spot (operationsPath output)} := by
  unfold write at h
  dsimp only at h
  split at h
  · rename_i u hmodels
    obtain ⟨-, rfl⟩ := Prod.mk.inj h
    exact (frame_writeAll hmodels).mono fun p hp => .inl hp
  · rename_i u hmodels
    have hframe := frame_writeAll hmodels
    split at h
    · obtain ⟨-, rfl⟩ := Prod.mk.inj h
      exact hframe.mono fun p hp => .inl hp
    · rename_i files hfiles
      generalize hrun : writeAll u files = run at h
      obtain ⟨last, w⟩ := run
      obtain ⟨-, rfl⟩ := Prod.mk.inj h
      refine (hframe.trans (frame_writeAll hrun)).mono ?_
      rintro p (hp | hp)
      · exact .inl hp
      · obtain ⟨f, hf, rfl⟩ := List.mem_map.1 hp
        rw [hframe.spot_eq, operationsFile_paths hfiles f hf]
        exact .inr rfl

/-- A run that ends well has written all its files. -/
theorem write_ok {b : Bundle} {output : String} {written : List String}
    (h : write t b output = (.ok written, t')) :
    ∃ files, operationsFile b output = .ok files ∧
      written = (modelFiles b output ++ files).map (·.path) ∧
      writeAll t (modelFiles b output ++ files) = (.ok (), t') := by
  unfold write at h
  dsimp only at h
  split at h
  · cases h
  · rename_i u hmodels
    split at h
    · cases h
    · rename_i files hfiles
      generalize hrun : writeAll u files = run at h
      obtain ⟨last, w⟩ := run
      obtain ⟨hresult, rfl⟩ := Prod.mk.inj h
      cases last with
      | error f => cases hresult
      | ok _ =>
        refine ⟨files, hfiles, (Except.ok.inj hresult).symm, ?_⟩
        rw [writeAll_append hmodels, hrun]

end Emission
end ApiTypes

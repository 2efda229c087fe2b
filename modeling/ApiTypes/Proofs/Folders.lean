import ApiTypes.Layout
import ApiTypes.Proofs.NameChars
import ApiTypes.Proofs.Paths
import ApiTypes.Proofs.Siblings

/-!
# Folders of documents

* `Layout.IsFolder` : what the folder of a document other than the target is like;
* `Layout.Placed` : what holds of folders while they are given, each to one document;
* `Layout.folders_ok`, `Layout.folders_placed` : in the end every document has a folder of its own.
-/

namespace ApiTypes

namespace Name

theorem isFolderChar_of_mem_joinGaps {gap : Bool} {cs : List Char} :
    ∀ c ∈ joinGaps gap cs, isFolderChar c = true := by
  induction cs generalizing gap with
  | nil => simp [joinGaps]
  | cons c rest ih =>
    rw [joinGaps]
    split_ifs with hc
    · exact List.forall_mem_cons.2 ⟨hc.1, ih⟩
    · exact ih
    · exact List.forall_mem_cons.2 ⟨by decide, ih⟩

theorem over_folder (key : String) : Text.Over (isFolderChar · = true) (folder key) := by
  unfold folder
  dsimp only
  split_ifs
  · exact List.all_eq_true.1 (by decide)
  · intro c hc
    rw [String.toList_ofList, List.mem_reverse] at hc
    have hback := List.mem_reverse.1 ((List.dropWhile_suffix _).subset hc)
    exact isFolderChar_of_mem_joinGaps c ((List.dropWhile_suffix _).subset hback)

theorem folder_ne_empty (key : String) : folder key ≠ "" := by
  unfold folder
  dsimp only
  split_ifs with hempty
  · decide
  · intro h
    rw [← String.toList_inj, String.toList_ofList] at h
    exact hempty (by simp [h])

end Name

namespace Layout

/-! ## One folder -/

/-- The folder of a document other than the target: letters, digits, `_` and `-`, at least one. -/
structure IsFolder (folder : String) : Prop where
  ne_empty : folder ≠ ""
  chars : Text.Over (Name.isFolderChar · = true) folder

theorem IsFolder.append {folder : String} (h : IsFolder folder) {s : String}
    (hs : Text.Over (Name.isFolderChar · = true) s) : IsFolder (folder ++ s) where
  ne_empty heq := h.ne_empty (String.append_eq_empty_iff.1 heq).1
  chars := Text.over_append.2 ⟨h.chars, hs⟩

theorem isFolder_freeFolder (used : List String) (key : String) :
    IsFolder (freeFolder used (Name.folder key)) := by
  have hplain : IsFolder (Name.folder key) := ⟨Name.folder_ne_empty key, Name.over_folder key⟩
  have hdigit : ∀ c : Char, c.isDigit = true → Name.isFolderChar c = true := by
    intro c hc
    simp [Name.isFolderChar, Char.isAlphanum, hc]
  unfold freeFolder
  split_ifs
  · exact (hplain.append (List.all_eq_true.1 (by decide))).append (Text.over_number hdigit _)
  · exact hplain

theorem IsFolder.downward {folder : String} (h : IsFolder folder) : Path.Downward folder := by
  refine Path.downward_of_not_mem (fun hslash => ?_) fun hdot => ?_
  · exact absurd (h.chars _ hslash) (by decide)
  · exact absurd (h.chars _ hdot) (by decide)

theorem downward_targetFolder : Path.Downward targetFolder := ⟨by decide, by decide⟩

theorem freeNumber_eq (used : List String) (name : String) (tries n : Nat) :
    freeNumber used name tries n = Resolve.freeNumber used (name ++ "_") tries n := by
  induction tries generalizing n with
  | zero => rfl
  | succ tries ih => rw [freeNumber, Resolve.freeNumber, ih]

theorem freeFolder_not_mem (used : List String) (name : String) : freeFolder used name ∉ used := by
  unfold freeFolder
  split
  · rename_i hname
    rw [freeNumber_eq]
    refine Resolve.freeNumber_not_mem (List.contains_iff_mem.1 hname) fun i h => ?_
    have hlength := congrArg (fun s : String => s.toList.length) h
    simp only [String.toList_append, List.length_append] at hlength
    have hmark : ("_" : String).toList.length = 1 := rfl
    omega
  · rename_i hname
    exact fun hmem => hname (List.contains_iff_mem.2 hmem)

/-! ## A folder for each document -/

/-- What holds of folders while they are given: all are used, each belongs to one document, and that
of the target is known. -/
structure Placed (target : String) (done : Folders) (used : List String) : Prop where
  ofTarget : Keyed.get? done target = some targetFolder
  used : ∀ key folder, Keyed.get? done key = some folder → folder ∈ used
  apart : ∀ key key' folder, Keyed.get? done key = some folder →
    Keyed.get? done key' = some folder → key = key'
  isFolder : ∀ key folder, key ≠ target → Keyed.get? done key = some folder → IsFolder folder

namespace Placed

variable {target : String} {done : Folders} {used : List String}

theorem start (target : String) : Placed target [(target, targetFolder)] [targetFolder] := by
  have hone : ∀ key folder, Keyed.get? [(target, targetFolder)] key = some folder →
      target = key ∧ folder = targetFolder := by
    intro key folder h
    rw [Keyed.get?] at h
    split_ifs at h with hkey
    · exact ⟨hkey, (Option.some.inj h).symm⟩
    · cases h
  constructor
  case ofTarget => simp [Keyed.get?]
  case used => exact fun key folder h => List.mem_singleton.2 (hone key folder h).2
  case apart => exact fun key key' folder h h' => (hone key _ h).1.symm.trans (hone key' _ h').1
  case isFolder => exact fun key folder hne h => absurd (hone key folder h).1.symm hne

/-- One more document gets a folder that is not used. -/
theorem step (h : Placed target done used) {key folder : String} (hkey : key ≠ target)
    (hfree : folder ∉ used) (hfolder : IsFolder folder) :
    Placed target (Keyed.put done key folder) (folder :: used) := by
  have hcases : ∀ k f, Keyed.get? (Keyed.put done key folder) k = some f →
      (k = key ∧ f = folder) ∨ (k ≠ key ∧ Keyed.get? done k = some f) := by
    intro k f hk
    rw [Keyed.get?_put] at hk
    split_ifs at hk with heq
    · exact .inl ⟨heq.symm, (Option.some.inj hk).symm⟩
    · exact .inr ⟨Ne.symm heq, hk⟩
  constructor
  case ofTarget => rw [Keyed.get?_put, if_neg hkey, h.ofTarget]
  case used =>
    intro k f hk
    rcases hcases k f hk with ⟨-, rfl⟩ | ⟨-, hold⟩
    · exact List.mem_cons_self ..
    · exact List.mem_cons_of_mem _ (h.used k f hold)
  case apart =>
    intro k k' f hk hk'
    rcases hcases k f hk with ⟨rfl, rfl⟩ | ⟨-, hold⟩ <;>
      rcases hcases k' _ hk' with ⟨rfl, hf⟩ | ⟨-, hold'⟩
    · rfl
    · exact absurd (h.used k' _ hold') hfree
    · exact absurd (h.used k _ (hf ▸ hold)) hfree
    · exact h.apart k k' f hold hold'
  case isFolder =>
    intro k f hne hk
    rcases hcases k f hk with ⟨-, rfl⟩ | ⟨-, hold⟩
    · exact hfolder
    · exact h.isFolder k f hne hold

theorem foldersFrom (h : Placed target done used) (keys : List String) :
    ∃ used', Placed target (Layout.foldersFrom target done used keys) used' := by
  induction keys generalizing done used with
  | nil => exact ⟨used, h⟩
  | cons key rest ih =>
    rw [Layout.foldersFrom]
    split_ifs with htarget
    · exact ih h
    · exact ih (h.step htarget (freeFolder_not_mem used _) (isFolder_freeFolder used key))

theorem downward (h : Placed target done used) {key folder : String}
    (hfolder : Keyed.get? done key = some folder) : Path.Downward folder := by
  by_cases hkey : key = target
  · subst hkey
    obtain rfl : targetFolder = folder := Option.some.inj (h.ofTarget.symm.trans hfolder)
    exact downward_targetFolder
  · exact (h.isFolder key folder hkey hfolder).downward

end Placed

theorem folders_placed (target : String) (keys : List String) :
    ∃ used, Placed target (folders target keys) used :=
  (Placed.start target).foldersFrom keys

theorem get?_foldersFrom {target key : String} {done : Folders} {used keys : List String}
    (h : (Keyed.get? done key).isSome = true ∨ key ∈ keys ∧ key ≠ target) :
    (Keyed.get? (foldersFrom target done used keys) key).isSome = true := by
  induction keys generalizing done used with
  | nil => simpa [foldersFrom] using h
  | cons first rest ih =>
    rw [foldersFrom]
    split_ifs with htarget
    · refine ih (h.imp_right fun hkey => ⟨?_, hkey.2⟩)
      exact (List.mem_cons.1 hkey.1).resolve_left fun heq => hkey.2 (heq.trans htarget)
    · refine ih ?_
      rw [Keyed.get?_put]
      by_cases heq : first = key
      · simp [heq]
      · rw [if_neg heq]
        exact h.imp_right fun hkey =>
          ⟨(List.mem_cons.1 hkey.1).resolve_left (Ne.symm heq), hkey.2⟩

/-- Every document has a folder. -/
theorem folders_ok {target key : String} {keys : List String} (h : key = target ∨ key ∈ keys) :
    ∃ folder, Keyed.get? (folders target keys) key = some folder ∧ Path.Downward folder := by
  have hsome : (Keyed.get? (folders target keys) key).isSome = true := by
    refine get?_foldersFrom ?_
    by_cases heq : target = key
    · exact .inl (by simp [Keyed.get?, heq])
    · exact .inr ⟨h.resolve_left (Ne.symm heq), Ne.symm heq⟩
  obtain ⟨folder, hfolder⟩ := Option.isSome_iff_exists.1 hsome
  obtain ⟨used, hplaced⟩ := folders_placed target keys
  exact ⟨folder, hfolder, hplaced.downward hfolder⟩

end Layout
end ApiTypes

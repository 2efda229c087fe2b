import ApiTypes.Proofs.ImportLines
import ApiTypes.Proofs.MovedOperations

/-!
# Bundles and files under other keys

* `Registry.Moves` : all documents of a registry, under other keys in the same order;
* `Layout.folders_moved` : they get the same folders;
* `Bundle.moved`, `Bundle.make_moved` : a bundle whose documents have other keys, and that it is what
  another run makes;
* `Emission.modelFiles_moved`, `Emission.operationsFile_moved` : such a bundle has the same files.
-/

namespace ApiTypes

variable {move : String → String}

/-! ## Keys -/

namespace Keyed

variable {α : Type} {scope : String → Prop}
  (hinjective : ∀ key key', scope key → scope key' → move key = move key' → key = key')
include hinjective

/-- What is found under a key is found under the other. -/
theorem get?_map {m : Keyed String α} (hm : ∀ e ∈ m, scope e.1) {key : String} (hkey : scope key) :
    get? (m.map (Prod.map move id)) (move key) = get? m key := by
  induction m with
  | nil => rfl
  | cons e rest ih =>
    rw [List.forall_mem_cons] at hm
    rw [List.map_cons, Prod.map_apply', get?, get?, ih hm.2]
    by_cases heq : e.1 = key
    · rw [if_pos heq, if_pos (congrArg move heq)]
      rfl
    · rw [if_neg heq, if_neg fun hmove => heq (hinjective _ _ hm.1 hkey hmove)]

theorem put_map {m : Keyed String α} (hm : ∀ e ∈ m, scope e.1) {key : String} (hkey : scope key)
    (v : α) : put (m.map (Prod.map move id)) (move key) v =
      (put m key v).map (Prod.map move id) := by
  induction m with
  | nil => rfl
  | cons e rest ih =>
    rw [List.forall_mem_cons] at hm
    unfold put at ih ⊢
    rw [List.map_cons, Prod.map_apply', putBy, putBy]
    by_cases heq : e.1 = key
    · rw [if_pos (decide_eq_true heq), if_pos (decide_eq_true (congrArg move heq))]
      rfl
    · have hmove : move e.1 ≠ move key := fun hmove => heq (hinjective _ _ hm.1 hkey hmove)
      rw [if_neg (by simpa using hmove), if_neg (by simpa using heq), ih hm.2]
      rfl

omit hinjective in
theorem forall_mem_put {P : String → Prop} {m : Keyed String α} (hm : ∀ e ∈ m, P e.1)
    {key : String} (hkey : P key) (v : α) : ∀ e ∈ put m key v, P e.1 := by
  induction m with
  | nil => exact List.forall_mem_singleton.2 hkey
  | cons e rest ih =>
    rw [List.forall_mem_cons] at hm
    unfold put at ih ⊢
    rw [putBy]
    split_ifs
    · exact List.forall_mem_cons.2 ⟨hm.1, hm.2⟩
    · exact List.forall_mem_cons.2 ⟨hm.1, ih hm.2⟩

end Keyed

/-! ## Folders -/

namespace Layout

variable {scope : String → Prop}
  (hinjective : ∀ key key', scope key → scope key' → move key = move key' → key = key')
  (hfolder : ∀ key, scope key → Name.folder (move key) = Name.folder key)
include hinjective hfolder

/-- Documents get the same folders under other keys that they are named after in the same way. -/
theorem foldersFrom_moved {target : String} (htarget : scope target) {keys : List String}
    (hkeys : ∀ key ∈ keys, scope key) {done : Folders} (hdone : ∀ e ∈ done, scope e.1)
    (used : List String) :
    foldersFrom (move target) (done.map (Prod.map move id)) used (keys.map move) =
        (foldersFrom target done used keys).map (Prod.map move id) ∧
      ∀ e ∈ foldersFrom target done used keys, scope e.1 := by
  induction keys generalizing done used with
  | nil => exact ⟨rfl, hdone⟩
  | cons key rest ih =>
    rw [List.forall_mem_cons] at hkeys
    rw [List.map_cons, foldersFrom, foldersFrom]
    by_cases heq : key = target
    · rw [if_pos heq, if_pos (congrArg move heq)]
      exact ih hkeys.2 hdone used
    · have hmove : move key ≠ move target := fun hmove =>
        heq (hinjective _ _ hkeys.1 htarget hmove)
      rw [if_neg heq, if_neg hmove]
      dsimp only
      rw [hfolder key hkeys.1, Keyed.put_map hinjective hdone hkeys.1]
      exact ih hkeys.2 (Keyed.forall_mem_put hdone hkeys.1 _) _

theorem folders_moved {target : String} (htarget : scope target) {keys : List String}
    (hkeys : ∀ key ∈ keys, scope key) :
    folders (move target) (keys.map move) = (folders target keys).map (Prod.map move id) ∧
      ∀ e ∈ folders target keys, scope e.1 :=
  @foldersFrom_moved move scope hinjective hfolder target htarget keys hkeys
    [(target, targetFolder)] (List.forall_mem_singleton.2 htarget) [targetFolder]

omit hfolder

/-- The folder of what is imported is the same. -/
theorem folderOf_moved {dirs : Folders} (hdirs : ∀ e ∈ dirs, scope e.1) {i : Import}
    (hi : ∀ key, i.document = some key → scope key ∧ key ≠ "" ∧ move key ≠ "") (own : String) :
    folderOf own (dirs.map (Prod.map move id)) (i.moved move) = folderOf own dirs i := by
  unfold folderOf Import.moved
  cases hdocument : i.document with
  | none => rfl
  | some key =>
    obtain ⟨hkey, hne, hmove⟩ := hi key hdocument
    have hkept : (some key).filter (· ≠ "") = some key := by simp [hne]
    have hkept' : (some (move key)).filter (· ≠ "") = some (move key) := by simp [hmove]
    rw [Option.map_some, hkept, hkept']
    dsimp only
    rw [Keyed.get?_map hinjective hdirs hkey]

/-- So are the import lines of a file. -/
theorem importLines_moved {dirs : Folders} (hdirs : ∀ e ∈ dirs, scope e.1) {imports : List Import}
    (himports : ∀ i ∈ imports, ∀ key, i.document = some key →
      scope key ∧ key ≠ "" ∧ move key ≠ "") (own : String) (excluded : Option String) :
    importLines (imports.map (·.moved move)) own (dirs.map (Prod.map move id)) excluded =
      importLines imports own dirs excluded := by
  have hfilter : (imports.map (·.moved move)).filter (fun i => some i.name ≠ excluded) =
      (imports.filter fun i => some i.name ≠ excluded).map (·.moved move) := by
    rw [List.filter_map]
    rfl
  unfold importLines
  rw [hfilter, @firstOfName_map Import (·.name) (·.moved move) fun _ => rfl, List.map_map]
  refine List.map_congr_left fun i hi => ?_
  have hmem := (List.mem_filter.1 (firstOfName_subset _ _ hi)).1
  rw [Function.comp_apply, folderOf_moved hinjective hdirs (himports i hmem)]
  rfl

end Layout

/-! ## Bundles -/

/-- A volume of a document with another key. -/
def Volume.moved (move : String → String) (v : Volume) : Volume :=
  { v with
    document := move v.document
    declarations := v.declarations.map (·.moved move) }

/-- A bundle whose documents have other keys. -/
def Bundle.moved (move : String → String) (b : Bundle) : Bundle :=
  { b with
    target := move b.target
    folders := b.folders.map (Prod.map move id)
    volumes := b.volumes.map (·.moved move)
    operations := b.operations.map (·.moved move) }

/-- All documents of a registry, in another under other keys that are in the same order and that
documents are named after in the same way. -/
structure Registry.Moves (move : String → String) (r r' : Registry) : Prop where
  mirrors : r.Mirrors move (· ∈ r.map Prod.fst) r'
  keys : r'.map Prod.fst = (r.map Prod.fst).map move
  ordered : ∀ a ∈ r.map Prod.fst, ∀ b ∈ r.map Prod.fst, decide (a ≤ b) = decide (move a ≤ move b)
  named : ∀ key ∈ r.map Prod.fst, Reference.documentName (Pointer.split (move key)).1 =
    Reference.documentName (Pointer.split key).1
  folder : ∀ key ∈ r.map Prod.fst, Name.folder (move key) = Name.folder key
  given : ∀ key ∈ r.map Prod.fst, key ≠ "" ∧ move key ≠ ""

namespace Registry.Moves

variable {r r' : Registry} (h : r.Moves move r')
include h

theorem keysOf_moved : Bundle.keysOf r' = (Bundle.keysOf r).map move := by
  rw [Bundle.keysOf, Bundle.keysOf, h.keys]
  exact (List.map_mergeSort h.ordered).symm

variable {target : String} (htarget : target ∈ r.map Prod.fst)
include htarget

theorem others_moved : (Bundle.keysOf r').filter (· ≠ move target) =
    ((Bundle.keysOf r).filter (· ≠ target)).map move := by
  rw [h.keysOf_moved, List.filter_map]
  refine congrArg _ (List.filter_congr fun key hkey => ?_)
  have hmem : key ∈ r.map Prod.fst := List.mem_mergeSort.1 hkey
  refine decide_eq_decide.2 (not_congr ⟨fun hmove => ?_, congrArg move⟩)
  exact h.mirrors.injective _ _ hmem htarget hmove

theorem folders_moved :
    Layout.folders (move target) (Bundle.keysOf r') =
        (Layout.folders target (Bundle.keysOf r)).map (Prod.map move id) ∧
      ∀ e ∈ Layout.folders target (Bundle.keysOf r), e.1 ∈ r.map Prod.fst := by
  rw [h.keysOf_moved]
  exact Layout.folders_moved h.mirrors.injective h.folder htarget
    fun key hkey => List.mem_mergeSort.1 hkey

theorem volume_moved {key : String} (hkey : key ∈ r.map Prod.fst) (ds : List Declaration) :
    Bundle.volume (Layout.folders (move target) (Bundle.keysOf r')) (move key)
        (ds.map (·.moved move)) =
      (Bundle.volume (Layout.folders target (Bundle.keysOf r)) key ds).moved move := by
  obtain ⟨hfolders, hscope⟩ := h.folders_moved htarget
  unfold Bundle.volume Bundle.folderOf
  rw [hfolders, Keyed.get?_map h.mirrors.injective hscope hkey,
    @firstOfName_map Declaration (·.name) (·.moved move) fun _ => rfl]
  rfl

end Registry.Moves

/-- Another run makes the same bundle under other keys. -/
theorem Bundle.make_moved {r r' : Registry} (h : r.Moves move r') (hclosed : r.Closed)
    {target : String} (htarget : target ∈ r.map Prod.fst) (config : Config) :
    Except.Carries (·.moved move) (make config target r) (make config (move target) r') := by
  have hwithin : ∀ key ∈ r.map Prod.fst, (Context.start r key config.overrides).Within
      (· ∈ r.map Prod.fst) r (r.document key).refs := fun key hkey =>
    ⟨rfl, hkey, hkey, by simp [Context.start], hclosed.owns hkey config.overrides⟩
  have hdocument : ∀ key ∈ r.map Prod.fst, Except.Carries (List.map (·.moved move))
      (Definition.ofDocument (.start r key config.overrides)).outcome
      (Definition.ofDocument (.start r' (move key) config.overrides)).outcome := fun key hkey =>
    @Definition.ofDocument_moved move _ r r' h.mirrors (.start r key config.overrides)
      (hwithin key hkey) (h.named key hkey)
  have hoperations := @Operation.ofTarget_moved move _ r r' h.mirrors
    (.start r target config.overrides) (hwithin target htarget)
  unfold make
  refine Except.Carries.bind hoperations fun operations _ => ?_
  refine (hdocument target htarget).bind fun own _ => ?_
  refine Except.Carries.bind (f := List.map (·.moved move)) ?_ fun others _ => ?_
  · rw [h.others_moved htarget]
    refine .mapM fun key hkey => ?_
    have hmem : key ∈ r.map Prod.fst := List.mem_mergeSort.1 (List.mem_filter.1 hkey).1
    refine (hdocument key hmem).bind fun ds _ => ?_
    rw [h.volume_moved htarget hmem]
    exact .ok _
  · rw [h.mirrors.document_eq htarget]
    refine .same fun info _ => ?_
    have hneeded : (operations.map (·.moved move)).flatMap (·.declarations) =
        (operations.flatMap (·.declarations)).map (·.moved move) := by
      rw [List.flatMap_map, List.map_flatMap]
      rfl
    rw [hneeded, ← List.map_append, h.volume_moved htarget htarget, (h.folders_moved htarget).1]
    exact .ok _

/-! ## Files -/

namespace Emission

variable {r r' : Registry} (h : r.Moves move r') {config : Config} {target : String} {b : Bundle}
  (hmake : Bundle.make config target r = .ok b) (htarget : target ∈ r.map Prod.fst)
include h hmake htarget

theorem importLines_moved {imports : List Import} (himports : imports ⊆ b.imports) (own : String)
    (excluded : Option String) :
    Layout.importLines (imports.map (·.moved move)) own (b.moved move).folders excluded =
      Layout.importLines imports own b.folders excluded := by
  obtain ⟨-, -, -, hfolders, -⟩ := Bundle.make_ok hmake
  refine Layout.importLines_moved h.mirrors.injective ?_ (fun i hi key hkey => ?_) own excluded
  · rw [hfolders]
    exact (h.folders_moved htarget).2
  · have hmem := Bundle.mem_keys_of_import hmake (himports hi) hkey
    exact ⟨hmem, h.given key hmem⟩

theorem volumeFiles_moved {v : Volume} (hv : v ∈ b.volumes) (output : String) :
    volumeFiles (b.moved move) output (v.moved move) = volumeFiles b output v := by
  have hnames : (v.moved move).declarations.map (·.name) = v.declarations.map (·.name) := by
    rw [Volume.moved, List.map_map]
    rfl
  have hfiles : (v.moved move).declarations.map (declarationFile (b.moved move) output v.folder) =
      v.declarations.map (declarationFile b output v.folder) := by
    rw [Volume.moved, List.map_map]
    refine List.map_congr_left fun d hd => ?_
    have hlines := importLines_moved h hmake htarget (fun i hi => Bundle.mem_imports hv hd hi)
      v.folder (some d.name)
    rw [Function.comp_apply, declarationFile, declarationFile, Declaration.moved_name,
      Declaration.moved, hlines]
    rfl
  have hempty : (v.moved move).declarations.isEmpty = v.declarations.isEmpty :=
    List.isEmpty_map
  unfold volumeFiles
  dsimp only
  rw [hnames, hempty]
  exact congrArg (· ++ _) hfiles

/-- The files of declarations are the same under other keys. -/
theorem modelFiles_moved (output : String) :
    modelFiles (b.moved move) output = modelFiles b output := by
  have hvolumes : (b.moved move).volumes = b.volumes.map (·.moved move) := rfl
  rw [modelFiles, modelFiles, hvolumes, List.flatMap_map]
  exact List.flatMap_congr fun v hv => volumeFiles_moved h hmake htarget hv output

/-- So is the file of operations. -/
theorem operationsFile_moved (output : String) :
    operationsFile (b.moved move) output = operationsFile b output := by
  have himports : (b.operations.map (·.moved move)).flatMap (·.imports) =
      (b.operations.flatMap (·.imports)).map (·.moved move) := by
    rw [List.flatMap_map, List.map_flatMap]
    rfl
  have hlines : Layout.operationImports (b.operations.map (·.moved move)) (b.moved move).folders =
      Layout.operationImports b.operations b.folders := by
    rw [Layout.operationImports, Layout.operationImports, himports,
      importLines_moved h hmake htarget (List.subset_append_right _ _)]
  have htexts : (b.operations.map (·.moved move)).mapM Layout.operationText =
      b.operations.mapM Layout.operationText := by
    rw [List.mapM_map]
    rfl
  have hempty : (b.operations.map (·.moved move)).isEmpty = b.operations.isEmpty :=
    List.isEmpty_map
  have htext : Layout.operationsText (header b) (b.operations.map (·.moved move))
      (b.moved move).folders = Layout.operationsText (header b) b.operations b.folders := by
    rw [Layout.operationsText, Layout.operationsText, hlines, htexts]
  have hheader : header (b.moved move) = header b := rfl
  unfold operationsFile
  rw [hheader, ← htext, ← hempty]
  rfl

/-- The same is written to every tree. -/
theorem write_moved (u : FileTree) (output : String) :
    write u (b.moved move) output = write u b output := by
  rw [write, write, modelFiles_moved h hmake htarget, operationsFile_moved h hmake htarget]

end Emission

theorem Bundle.size_moved (b : Bundle) : (b.moved move).size = b.size := by
  have hvolumes : (b.moved move).volumes = b.volumes.map (·.moved move) := rfl
  rw [size, size, hvolumes, List.flatMap_map, List.length_flatMap, List.length_flatMap]
  simp [Volume.moved]

end ApiTypes

import ApiTypes.Proofs.ImportLines
import ApiTypes.Proofs.MadeNames
import ApiTypes.Proofs.Ownership
import ApiTypes.Proofs.Writing

/-!
# What a run writes

* `Name.IsFileName`, `Name.fileName_laws` : what the names of declarations are as names of files;
* `Emission.inside`, `Emission.spot_modelPath` : where the file of a declaration is under the output
  directory;
* `Emission.nodup_spots` : the files of a run have places of their own there;
* `Command.Writes` : what a run writes, and that it is all;
* `Command.BreaksOff` : that a run ends while it writes;
* `written_files` : a run that ends well does so, one that ends with the code 1 changes nothing
  unless it breaks off while it writes, and none changes a file outside the output directory.
-/

namespace ApiTypes

/-! ## Names of files -/

namespace Name
open Text

/-- A name that a file can have beside the one that exports the others: without a slash, and with
another start than `index`. -/
def IsFileName (n : String) : Prop := '/' ∉ n.toList ∧ n.toList.head? ≠ some 'i'

theorem wordsFrom_ne_nil {word cs : List Char} : ∀ w ∈ wordsFrom word cs, w ≠ [] := by
  induction cs generalizing word with
  | nil =>
    rw [wordsFrom]
    split_ifs with hword
    · simp
    · simpa using hword
  | cons c rest ih =>
    rw [wordsFrom]
    split_ifs with hc hword
    · exact ih
    · exact ih
    · refine List.forall_mem_cons.2 ⟨?_, ih⟩
      simpa using hword

theorem head?_upper {c : Char} (hc : isWordChar c = true) :
    ∃ d, (upper c).head? = some d ∧ d ≠ 'i' := by
  have hall : ∀ n < 0x180, isWordChar (Char.ofNat n) = true →
      (upper (Char.ofNat n)).head?.any (· ≠ 'i') = true := by decide +kernel
  have h := hall c.toNat (toNat_lt_of_wordChar hc)
  rw [Char.ofNat_toNat] at h
  obtain ⟨d, hd, hne⟩ := Option.any_eq_true _ _ |>.1 (h hc)
  exact ⟨d, hd, by simpa using hne⟩

/-- A name of words starts with a capital, or with what has none. -/
theorem head?_pascal (s : String) : (pascal s).toList.head? ≠ some 'i' := by
  have hbody : ((words s.toList).flatMap capitalize).head? ≠ some 'i' := by
    have hchars : ∀ w ∈ words s.toList, ∀ c ∈ w, isWordChar c = true := wordsFrom_chars (by simp)
    have hne : ∀ w ∈ words s.toList, w ≠ [] := wordsFrom_ne_nil
    cases hwords : words s.toList with
    | nil => simp
    | cons w ws =>
      rw [hwords] at hchars hne
      obtain ⟨c, rest, rfl⟩ := List.exists_cons_of_ne_nil (hne w (List.mem_cons_self ..))
      obtain ⟨d, hd, hdne⟩ := head?_upper
        (hchars (c :: rest) (List.mem_cons_self ..) c (List.mem_cons_self ..))
      rw [List.flatMap_cons, capitalize, List.append_assoc, List.head?_append, hd]
      simpa using hdne
  rw [pascal, String.toList_ofList, pascalChars]
  split_ifs
  · rw [List.head?_cons]
    decide
  · exact hbody

theorem fileName_laws : Laws IsFileName where
  pascal s := by
    refine ⟨fun hslash => ?_, head?_pascal s⟩
    exact absurd (over_pascal (p := (isDeclarable · = true)) (fun _ h => h) s _ hslash) (by decide)
  number n := by
    have hdigit : Over (·.isDigit = true) (toString n) := over_number (fun _ h => h) n
    refine ⟨fun hslash => absurd (hdigit _ hslash) (by decide), fun hhead => ?_⟩
    exact absurd (hdigit _ (List.mem_of_mem_head? hhead)) (by decide)
  append {s t} hs ht := by
    rw [IsFileName, String.toList_append, List.mem_append, List.head?_append]
    refine ⟨fun hslash => hslash.elim hs.1 ht.1, fun hhead => ?_⟩
    cases hempty : s.toList.head? with
    | none => exact ht.2 (by simpa [hempty] using hhead)
    | some c => exact hs.2 (by simpa [hempty] using hhead)

end Name

/-- The default suffixes are words. -/
theorem Config.suffixOf_default {config : Config} (h : config.suffixes = defaultSuffixes)
    {P : String → Prop} (laws : Name.Laws P) (componentType : String) :
    P (config.suffixOf componentType) := by
  unfold suffixOf
  rw [h, defaultSuffixes, Keyed.get?]
  split_ifs
  · exact laws.word (by decide +kernel)
  · rw [Keyed.get?]
    split_ifs
    · exact laws.word (by decide +kernel)
    · exact laws.empty

/-! ## Places under the output directory -/

namespace FileTree

/-- The place that a path leads to. -/
def placeAt (t : FileTree) (path : String) : Place :=
  reach (t.startOf path.toList) (Path.segments path.toList)

/-- A file whose path goes on from that of a directory is under that directory. -/
theorem spot_of_segments (t : FileTree) {path directory : String} {rest : List (List Char)}
    (hroot : Path.root path.toList = Path.root directory.toList)
    (hsegments : Path.segments path.toList = Path.segments directory.toList ++ rest)
    (hne : rest ≠ []) (hrest : ∀ s ∈ rest, s ≠ Path.parent) :
    t.spot path = t.placeAt directory ++ rest := by
  have hstart : t.startOf path.toList = t.startOf directory.toList := by
    have habsolute : Path.isAbsolute path.toList = Path.isAbsolute directory.toList := by
      rw [Bool.eq_iff_iff, Path.isAbsolute_iff_root, Path.isAbsolute_iff_root, hroot]
    rw [startOf, startOf, habsolute]
  have hlast : (Path.segments directory.toList ++ rest).getLast?.getD [] = rest.getLast hne := by
    rw [List.getLast?_append_of_ne_nil _ hne, List.getLast?_eq_some_getLast hne, Option.getD_some]
  have hfront : ∀ s ∈ rest.dropLast, s ≠ Path.parent := fun s hs =>
    hrest s (List.mem_of_mem_dropLast hs)
  rw [spot, hsegments, hlast, List.dropLast_append_of_ne_nil hne, reach_append, hstart,
    reach_names _ hfront, List.append_assoc, List.dropLast_append_getLast, placeAt]

end FileTree

namespace Layout

/-- The folder of a document: that of the target, or one of its own. -/
def IsPlace (folder : String) : Prop := folder = targetFolder ∨ IsFolder folder

/-- The segments of a folder. -/
theorem segments_folder {folder : String} (h : IsFolder folder) :
    Path.segments folder.toList = [folder.toList] := by
  have hplain : Path.Plain folder.toList := by
    refine ⟨fun hnil => h.ne_empty (String.toList_inj.1 hnil), fun hdot => ?_, fun hslash => ?_⟩
    · exact absurd (h.chars '.' (by rw [hdot]; exact List.mem_singleton_self _)) (by decide)
    · exact absurd (h.chars '/' hslash) (by decide)
  exact Path.segments_of_plain hplain

theorem segments_targetFolder : Path.segments targetFolder.toList = [] := by decide

theorem IsPlace.segments_inj {f g : String} (hf : IsPlace f) (hg : IsPlace g)
    (h : Path.segments f.toList = Path.segments g.toList) : f = g := by
  rcases hf with rfl | hf <;> rcases hg with rfl | hg
  · rfl
  · rw [segments_targetFolder, segments_folder hg] at h
    cases h
  · rw [segments_targetFolder, segments_folder hf] at h
    cases h
  · rw [segments_folder hf, segments_folder hg] at h
    exact String.toList_inj.1 (List.cons.inj h).1

theorem IsPlace.downward {folder : String} (h : IsPlace folder) : Path.Downward folder := by
  rcases h with rfl | h
  · exact downward_targetFolder
  · exact h.downward

end Layout

namespace Emission

/-- The segments from the output directory to the file of a declaration. -/
def inside (folder name : String) : List (List Char) :=
  Layout.modelFolder.toList :: (Path.segments folder.toList ++ [(name ++ ".ts").toList])

/-- The segments from there to the file of operations. -/
def operationsInside : List (List Char) := ["operations.ts".toList]

theorem getLast?_fileName (name : String) : (name ++ ".ts").toList.getLast? = some 's' := by
  rw [String.toList_append, List.getLast?_append]
  rfl

section
variable {folder name : String}

theorem plain_fileName (hname : '/' ∉ name.toList) : Path.Plain (name ++ ".ts").toList := by
  have hlast := getLast?_fileName name
  refine ⟨fun hnil => ?_, fun hdot => ?_, fun hslash => ?_⟩
  · rw [hnil] at hlast
    cases hlast
  · rw [hdot] at hlast
    exact absurd hlast (by decide)
  · rw [String.toList_append, List.mem_append] at hslash
    exact hslash.elim hname (by decide)

theorem isAbsolute_fileName (hname : '/' ∉ name.toList) :
    Path.isAbsolute (name ++ ".ts").toList = false := by
  have hplain := plain_fileName hname
  cases hcs : (name ++ ".ts").toList with
  | nil => rfl
  | cons c rest =>
    have hc : c ≠ '/' := fun heq => hplain.2.2 (by rw [hcs, heq]; exact List.mem_cons_self ..)
    simpa [Path.isAbsolute] using hc

theorem inside_ne_parent (hfolder : Layout.IsPlace folder) :
    ∀ s ∈ inside folder name, s ≠ Path.parent := by
  have hlast : (name ++ ".ts").toList ≠ Path.parent := by
    intro heq
    have hend := getLast?_fileName name
    rw [heq] at hend
    exact absurd hend (by decide)
  refine List.forall_mem_cons.2 ⟨by decide, List.forall_mem_append.2 ⟨?_, ?_⟩⟩
  · exact fun s hs heq => hfolder.downward.2 (heq ▸ hs)
  · exact List.forall_mem_singleton.2 hlast

variable (hfolder : Layout.IsPlace folder) (hname : '/' ∉ name.toList)
include hfolder hname

theorem segments_modelPath (output : String) :
    Path.segments (modelPath output folder name).toList =
      Path.segments output.toList ++ inside folder name := by
  have hmodel : Path.segments Layout.modelFolder.toList = [Layout.modelFolder.toList] := by decide
  rw [modelPath, Path.segments_below _ (isAbsolute_fileName hname),
    Path.segments_below _ hfolder.downward.1, Path.segments_below _ (by decide), hmodel,
    Path.segments_of_plain (plain_fileName hname), inside]
  simp only [List.append_assoc, List.nil_append, List.cons_append]

theorem root_modelPath (output : String) :
    Path.root (modelPath output folder name).toList = Path.root output.toList := by
  rw [modelPath, Path.root_below _ (isAbsolute_fileName hname),
    Path.root_below _ hfolder.downward.1, Path.root_below _ (by decide)]

/-- The path of the file of a declaration, in one piece. -/
theorem modelPath_eq (output : String) : modelPath output folder name =
    Path.below output ("model/" ++ folder ++ "/" ++ name ++ ".ts") := by
  have hlist : ("model/" ++ folder ++ "/" ++ name ++ ".ts").toList =
      Layout.modelFolder.toList ++ '/' :: (folder.toList ++ '/' :: (name ++ ".ts").toList) := by
    have hslash : "/".toList = ['/'] := rfl
    have hmark : "model/".toList = Layout.modelFolder.toList ++ ['/'] := rfl
    simp only [String.toList_append, hslash, hmark, List.append_assoc, List.nil_append,
      List.cons_append]
  have hmodel : Path.segments Layout.modelFolder.toList = [Layout.modelFolder.toList] := by decide
  have hsegments : Path.segments ("model/" ++ folder ++ "/" ++ name ++ ".ts").toList =
      inside folder name := by
    rw [hlist, Path.segments_append_slash, Path.segments_append_slash, hmodel,
      Path.segments_of_plain (plain_fileName hname), inside, List.singleton_append]
  have hrelative : Path.isAbsolute ("model/" ++ folder ++ "/" ++ name ++ ".ts").toList = false := by
    rw [hlist]
    rfl
  refine Path.below_congr (isAbsolute_fileName hname) hrelative ?_ ?_
  · rw [Path.root_below _ hfolder.downward.1, Path.root_below _ (by decide)]
  · rw [hsegments, ← Path.segments_below _ (isAbsolute_fileName hname), ← modelPath,
      segments_modelPath hfolder hname]

theorem spot_modelPath (t : FileTree) (output : String) :
    t.spot (modelPath output folder name) = t.placeAt output ++ inside folder name :=
  t.spot_of_segments (root_modelPath hfolder hname output) (segments_modelPath hfolder hname output)
    (by simp [inside]) (inside_ne_parent hfolder)

end

theorem spot_operationsPath (t : FileTree) (output : String) :
    t.spot (operationsPath output) = t.placeAt output ++ operationsInside := by
  have hsegments : Path.segments "operations.ts".toList = operationsInside := by decide
  refine t.spot_of_segments ?_ ?_ (by decide) (by decide)
  · exact Path.root_below output (by decide)
  · rw [operationsPath, Path.segments_below output (by decide), hsegments]

/-- Files in different folders or with different names are at different places. -/
theorem inside_inj {folder folder' name name' : String} (hf : Layout.IsPlace folder)
    (hf' : Layout.IsPlace folder') (h : inside folder name = inside folder' name') :
    folder = folder' ∧ name = name' := by
  obtain ⟨hsegments, hfile⟩ := List.append_inj' (List.cons.inj h).2 rfl
  refine ⟨hf.segments_inj hf' hsegments, ?_⟩
  have htext := String.toList_inj.1 (List.cons.inj hfile).1
  exact (String.append_left_inj _).1 htext

theorem inside_ne_operations (folder name : String) : inside folder name ≠ operationsInside := by
  intro h
  exact absurd (List.cons.inj h).1 (by decide)

end Emission

/-! ## The files of a run -/

/-- What holds of a bundle whose files have places of their own: documents have folders of their own,
and declarations names of their own that files can have. -/
structure Bundle.HasPlaces (b : Bundle) : Prop where
  folders : ∀ v ∈ b.volumes, Layout.IsPlace v.folder
  apart : (b.volumes.map (·.folder)).Nodup
  names : ∀ v ∈ b.volumes, ∀ d ∈ v.declarations, Name.IsFileName d.name
  distinct : ∀ v ∈ b.volumes, (v.declarations.map (·.name)).Nodup

theorem nodup_firstOfName {α : Type} (name : α → String) (as : List α) :
    ((firstOfName name as).map name).Nodup := by
  induction as with
  | nil => exact .nil
  | cons a rest ih =>
    rw [firstOfName, List.map_cons, List.nodup_cons]
    refine ⟨fun hmem => ?_, ih.sublist ((List.filter_sublist).map name)⟩
    obtain ⟨b, hb, hname⟩ := List.mem_map.1 hmem
    simpa [hname] using (List.mem_filter.1 hb).2

section
variable {config : Config} {target : String} {documents : Registry} {b : Bundle}

/-- The documents of a run are those that are loaded, each once. -/
theorem Bundle.nodup_documents (h : make config target documents = .ok b)
    (hkeys : (documents.map Prod.fst).Nodup) : (b.volumes.map (·.document)).Nodup := by
  obtain ⟨own, others, -, -, -, -, hvolumes, hothers⟩ := make_ok h
  have hdocuments : others.map (·.document) = (keysOf documents).filter (· ≠ target) := by
    have hsame := hothers.imp (S := fun key v => key = v.document) ?_
    · rw [← List.forall₂_eq_eq_eq, List.forall₂_map_left_iff]
      exact hsame.flip.imp fun v key heq => heq.symm
    · rintro key v ⟨ds, -, rfl⟩
      rfl
  have hsorted : (keysOf documents).Nodup := (List.mergeSort_perm _ _).nodup_iff.2 hkeys
  rw [hvolumes, List.map_cons, hdocuments, List.nodup_cons]
  refine ⟨fun hmem => ?_, hsorted.filter _⟩
  have hne := (List.mem_filter.1 hmem).2
  simp [volume] at hne

/-- The declarations of a document are in its folder. -/
theorem Bundle.get?_folder (h : make config target documents = .ok b) {v : Volume}
    (hv : v ∈ b.volumes) : Keyed.get? b.folders v.document = some v.folder := by
  obtain ⟨hfolder, hdocument⟩ := volume_folder h hv
  obtain ⟨-, -, -, hfolders, -⟩ := make_ok h
  obtain ⟨own, hown, -⟩ := Layout.folders_ok hdocument
  rw [← hfolders] at hown
  rw [hfolder, folderOf, hown, Option.getD_some]

theorem Bundle.folders_placed (h : make config target documents = .ok b) :
    ∃ used, Layout.Placed b.target b.folders used := by
  obtain ⟨-, -, htarget, hfolders, -⟩ := make_ok h
  rw [htarget, hfolders]
  exact Layout.folders_placed target _

/-- A run over documents under different keys, with the default suffixes, is such. -/
theorem Bundle.hasPlaces_make (h : make config target documents = .ok b)
    (hkeys : (documents.map Prod.fst).Nodup) (hsuffixes : config.suffixes = Config.defaultSuffixes) :
    b.HasPlaces := by
  obtain ⟨used, hplaced⟩ := folders_placed h
  have hdocuments := nodup_documents h hkeys
  constructor
  case folders =>
    intro v hv
    have hfolder := get?_folder h hv
    by_cases htarget : v.document = b.target
    · rw [htarget, hplaced.ofTarget] at hfolder
      exact .inl (Option.some.inj hfolder).symm
    · exact .inr (hplaced.isFolder _ _ htarget hfolder)
  case apart =>
    rw [List.nodup_map_iff_inj_on hdocuments.of_map]
    intro v hv w hw heq
    have hsame : v.document = w.document :=
      hplaced.apart _ _ v.folder (get?_folder h hv) (heq ▸ get?_folder h hw)
    exact List.inj_on_of_nodup_map hdocuments hv hw hsame
  case names =>
    exact made_names Name.fileName_laws h fun componentType =>
      Config.suffixOf_default hsuffixes Name.fileName_laws componentType
  case distinct =>
    intro v hv
    obtain ⟨ds, -, hfirst⟩ := volume_ok h hv
    rw [hfirst]
    exact nodup_firstOfName _ _

end

namespace Emission

/-- The names of the files of a document. -/
def fileNames (v : Volume) : List String :=
  v.declarations.map (·.name) ++ if v.declarations.isEmpty then [] else ["index"]

theorem paths_volumeFiles (b : Bundle) (output : String) (v : Volume) :
    (volumeFiles b output v).map (·.path) = (fileNames v).map (modelPath output v.folder) := by
  unfold volumeFiles fileNames
  dsimp only
  rw [List.map_append, List.map_append, List.map_map, List.map_map]
  split_ifs <;> rfl

variable {b : Bundle} (hb : b.HasPlaces) (t : FileTree) (output : String)
include hb

theorem slash_not_mem_fileNames {v : Volume} (hv : v ∈ b.volumes) :
    ∀ n ∈ fileNames v, '/' ∉ n.toList := by
  refine List.forall_mem_append.2 ⟨?_, ?_⟩
  · rw [List.forall_mem_map]
    exact fun d hd => (hb.names v hv d hd).1
  · split_ifs
    · simp
    · exact List.forall_mem_singleton.2 (by decide)

theorem nodup_fileNames {v : Volume} (hv : v ∈ b.volumes) : (fileNames v).Nodup := by
  refine List.nodup_append'.2 ⟨hb.distinct v hv, ?_, ?_⟩
  · split_ifs <;> simp
  · split_ifs
    · exact List.disjoint_nil_right _
    · rw [List.disjoint_singleton, List.mem_map]
      rintro ⟨d, hd, hindex⟩
      have hhead := (hb.names v hv d hd).2
      rw [hindex] at hhead
      exact hhead (by decide)

theorem spots_modelFiles : spots t (modelFiles b output) =
    b.volumes.flatMap fun v =>
      (fileNames v).map fun n => t.placeAt output ++ inside v.folder n := by
  have hpaths : spots t (modelFiles b output) = ((modelFiles b output).map (·.path)).map t.spot := by
    rw [List.map_map]
    rfl
  rw [hpaths, modelFiles, List.map_flatMap, List.map_flatMap]
  refine List.flatMap_congr fun v hv => ?_
  rw [paths_volumeFiles, List.map_map]
  refine List.map_congr_left fun n hn => ?_
  exact spot_modelPath (hb.folders v hv) (slash_not_mem_fileNames hb hv n hn) t output

/-- All that is written, also by a run that breaks off, is under the output directory. -/
theorem frame_output {t' : FileTree} {written : Except Fault (List String)}
    (h : write t b output = (written, t')) :
    FileTree.Frame t t' {p | ∃ rest, rest ≠ [] ∧ p = t.placeAt output ++ rest} := by
  refine (frame_write h).mono fun p hp => ?_
  have hcases : p ∈ spots t (modelFiles b output) ∨ p = t.spot (operationsPath output) := hp
  cases hcases with
  | inl hmodel =>
    rw [spots_modelFiles hb, List.mem_flatMap] at hmodel
    obtain ⟨v, -, hplace⟩ := hmodel
    obtain ⟨n, -, hn⟩ := List.mem_map.1 hplace
    exact ⟨inside v.folder n, List.cons_ne_nil _ _, hn.symm⟩
  | inr hoperations =>
    exact ⟨operationsInside, List.cons_ne_nil _ _,
      hoperations.trans (spot_operationsPath t output)⟩

/-- The files of declarations have places of their own. -/
theorem nodup_spots_modelFiles : (spots t (modelFiles b output)).Nodup := by
  rw [spots_modelFiles hb, List.nodup_flatMap]
  constructor
  · intro v hv
    refine (nodup_fileNames hb hv).map_on fun m _ n _ heq => ?_
    have hinside := List.append_cancel_left heq
    exact (inside_inj (hb.folders v hv) (hb.folders v hv) hinside).2
  · have hfolders := hb.apart
    rw [List.Nodup, List.pairwise_map] at hfolders
    refine hfolders.imp_of_mem fun {v w} hv hw hne p hp hp' => ?_
    obtain ⟨m, -, rfl⟩ := List.mem_map.1 hp
    obtain ⟨n, -, heq⟩ := List.mem_map.1 hp'
    have hinside := List.append_cancel_left heq
    exact hne (inside_inj (hb.folders w hw) (hb.folders v hv) hinside).1.symm

/-- All files of a run have places of their own. -/
theorem nodup_spots {files : List OutputFile} (hfiles : operationsFile b output = .ok files) :
    (spots t (modelFiles b output ++ files)).Nodup := by
  have hsingle : files.length ≤ 1 := by
    unfold operationsFile at hfiles
    split_ifs at hfiles
    · simp [← Except.ok.inj hfiles]
    · obtain ⟨text, -, hfiles⟩ := Except.bind_eq_ok.1 hfiles
      simp [← Except.ok.inj hfiles]
  have hplace : ∀ p ∈ spots t files, p = t.placeAt output ++ operationsInside := by
    intro p hp
    obtain ⟨f, hf, rfl⟩ := List.mem_map.1 hp
    rw [operationsFile_paths hfiles f hf, spot_operationsPath]
  rw [spots, List.map_append]
  refine List.nodup_append'.2 ⟨nodup_spots_modelFiles hb t output, ?_, fun p hp hp' => ?_⟩
  · match files, hsingle with
    | [], _ => exact .nil
    | [f], _ => exact List.nodup_singleton _
  · have hmodel : p ∈ spots t (modelFiles b output) := hp
    rw [spots_modelFiles hb, List.mem_flatMap] at hmodel
    obtain ⟨v, -, hp⟩ := hmodel
    obtain ⟨n, -, rfl⟩ := List.mem_map.1 hp
    exact inside_ne_operations _ _ (List.append_cancel_left (hplace _ hp'))

end Emission

namespace Command

/-- What a run writes, and that it is all: files with places of their own under the output
directory, as many as it says, and nothing else. -/
structure Writes (t t' : FileTree) (config : Config) (b : Bundle) (r : Result) : Prop where
  report : ∃ more, r.report =
    "Generated " ++ toString r.written.length ++ " files in " ++ config.output ++ more
  nodup : r.written.Nodup
  paths : ∀ path ∈ r.written, path = Path.below config.output "operations.ts" ∨
    ∃ v ∈ b.volumes, ∃ file, '/' ∉ file.toList ∧
      path = Path.below config.output ("model/" ++ v.folder ++ "/" ++ file ++ ".ts")
  ofTarget : ∀ v ∈ b.volumes, v.document = b.target → v.folder = "."
  others : ∀ v ∈ b.volumes, v.document ≠ b.target → Layout.IsFolder v.folder
  apart : (b.volumes.map (·.folder)).Nodup
  exact : ∃ operations, Emission.operationsFile b config.output = .ok operations ∧
    r.written = (Emission.modelFiles b config.output ++ operations).map (·.path) ∧
    (Emission.spots t (Emission.modelFiles b config.output ++ operations)).Nodup ∧
    (∀ f ∈ Emission.modelFiles b config.output ++ operations,
      FileTree.entry? t' (t.spot f.path) = some (.file (.text f.text))) ∧
    FileTree.Frame t t' {p | p ∈ Emission.spots t (Emission.modelFiles b config.output ++ operations)}

variable {t t' : FileTree} {environment : Option String} {arguments : List String} {ending : Ending}

theorem generate_of_error {cache cache' : DocumentCache} {config : Config} {f : Fault}
    (h : Bundle.load t cache config = (.error f, cache')) :
    generate t cache config = (.error f, t, cache') := by
  rw [generate, h]

theorem generate_of_ok {cache cache' : DocumentCache} {config : Config} {b : Bundle}
    (h : Bundle.load t cache config = (.ok b, cache')) :
    generate t cache config =
      ((Emission.write t b config.output).1.map fun paths =>
        ⟨Emission.report b config.output paths, paths⟩,
        (Emission.write t b config.output).2, cache') := by
  rw [generate, h]

/-- A command line whose documents make up a bundle, with the configuration it is made under. -/
structure Reads (t : FileTree) (environment : Option String) (arguments : List String)
    (config : Config) (b : Bundle) : Prop where
  configured : ∃ request, Request.ofArguments arguments = .ok request ∧
    configOf t environment request = .ok config
  loaded : ∃ cache, Bundle.load t [] config = (.ok b, cache)

/-- The run breaks off while it writes, with an exception that is none of those reported. -/
structure BreaksOff (t : FileTree) (config : Config) (b : Bundle) (ending : Ending) (f : Fault) :
    Prop where
  ending : ending = .failed f
  unreported : f.isReported = false
  writing : (Emission.write t b config.output).1 = .error f

/-- The code 1 is that of the faults, whether they are reported or not. -/
theorem Ending.exitCode_eq_one : ending.exitCode = 1 ↔ ∃ f, ending = .failed f := by
  cases ending with
  | finished r => simp [exitCode]
  | failed f => simp [exitCode]
  | refused r => cases r <;> simp [exitCode]

/-- The code 0 is that of the runs that end well, and of those that say how to use the command. -/
theorem Ending.exitCode_eq_zero :
    ending.exitCode = 0 ↔ ending = .refused .help ∨ ∃ r, ending = .finished r := by
  cases ending with
  | finished r => simp [exitCode]
  | failed f => simp [exitCode]
  | refused r => cases r <;> simp [exitCode]

/-- A run leaves the tree as it is, or writes a bundle. -/
theorem run_cases (h : run t environment arguments = (ending, t')) :
    (t' = t ∧ ∀ r, ending ≠ .finished r) ∨
    ∃ config b written, Reads t environment arguments config b ∧
      Emission.write t b config.output = (written, t') ∧
      ((∃ paths, written = .ok paths ∧
          ending = .finished ⟨Emission.report b config.output paths, paths⟩) ∨
        ∃ f, written = .error f ∧ ending = .failed f) := by
  unfold run at h
  split at h
  · obtain ⟨rfl, rfl⟩ := Prod.mk.inj h
    exact .inl ⟨rfl, by simp⟩
  · rename_i request hrequest
    split at h
    · obtain ⟨rfl, rfl⟩ := Prod.mk.inj h
      exact .inl ⟨rfl, by simp⟩
    · rename_i config hconfig
      cases hload : Bundle.load t [] config with
      | mk result cache =>
      cases result with
      | error f =>
        rw [generate_of_error hload] at h
        obtain ⟨rfl, rfl⟩ := Prod.mk.inj h
        exact .inl ⟨rfl, by simp⟩
      | ok b =>
        rw [generate_of_ok hload] at h
        cases hwrite : Emission.write t b config.output with
        | mk written u =>
        rw [hwrite] at h
        refine .inr ⟨config, b, written, ⟨⟨request, hrequest, hconfig⟩, cache, hload⟩, ?_⟩
        cases written with
        | error f =>
          obtain ⟨rfl, rfl⟩ := Prod.mk.inj h
          exact ⟨hwrite, .inr ⟨f, rfl, rfl⟩⟩
        | ok paths =>
          obtain ⟨rfl, rfl⟩ := Prod.mk.inj h
          exact ⟨hwrite, .inl ⟨paths, rfl, rfl⟩⟩

/-- The bundle of a run with the default suffixes. -/
theorem hasPlaces_load {cache cache' : DocumentCache} {config : Config} {b : Bundle}
    (h : Bundle.load t cache config = (.ok b, cache'))
    (hsuffixes : config.suffixes = Config.defaultSuffixes) : b.HasPlaces := by
  obtain ⟨target, documents, hgather, hmake⟩ := Bundle.load_ok h
  obtain ⟨-, -, hloading⟩ := Library.gather_ok hgather
  exact Bundle.hasPlaces_make hmake (List.nodup_append'.1 hloading.nodup).1 hsuffixes

theorem writes_of_write {cache cache' : DocumentCache} {config : Config} {b : Bundle}
    {paths : List String} (hload : Bundle.load t cache config = (.ok b, cache'))
    (hsuffixes : config.suffixes = Config.defaultSuffixes)
    (hwrite : Emission.write t b config.output = (.ok paths, t')) :
    Writes t t' config b ⟨Emission.report b config.output paths, paths⟩ := by
  have hplaces := hasPlaces_load hload hsuffixes
  obtain ⟨target, documents, -, hmake⟩ := Bundle.load_ok hload
  obtain ⟨used, hplaced⟩ := Bundle.folders_placed hmake
  obtain ⟨operations, hoperations, rfl, hall⟩ := Emission.write_ok hwrite
  have hspots := Emission.nodup_spots hplaces t config.output hoperations
  constructor
  case report =>
    exact ⟨" (" ++ toString b.size ++ " declarations)\n", by
      simp only [Emission.report, String.append_assoc]⟩
  case nodup =>
    have hmap : Emission.spots t (Emission.modelFiles b config.output ++ operations) =
        ((Emission.modelFiles b config.output ++ operations).map (·.path)).map t.spot := by
      rw [List.map_map]
      rfl
    rw [hmap] at hspots
    exact hspots.of_map
  case paths =>
    intro path hpath
    obtain ⟨f, hf, rfl⟩ := List.mem_map.1 hpath
    rcases List.mem_append.1 hf with hf | hf
    · obtain ⟨v, hv, hf⟩ := List.mem_flatMap.1 hf
      have hmem : f.path ∈ (Emission.volumeFiles b config.output v).map (·.path) :=
        List.mem_map.2 ⟨f, hf, rfl⟩
      rw [Emission.paths_volumeFiles] at hmem
      obtain ⟨n, hn, heq⟩ := List.mem_map.1 hmem
      have hslash := Emission.slash_not_mem_fileNames hplaces hv n hn
      refine .inr ⟨v, hv, n, hslash, ?_⟩
      rw [← heq, Emission.modelPath_eq (hplaces.folders v hv) hslash]
    · exact .inl (Emission.operationsFile_paths hoperations f hf)
  case ofTarget =>
    intro v hv htarget
    have hfolder := Bundle.get?_folder hmake hv
    rw [htarget, hplaced.ofTarget] at hfolder
    exact (Option.some.inj hfolder).symm
  case others =>
    exact fun v hv htarget => hplaced.isFolder _ _ htarget (Bundle.get?_folder hmake hv)
  case apart => exact hplaces.apart
  case exact =>
    exact ⟨operations, hoperations, rfl, hspots, Emission.writeAll_ok hall hspots,
      Emission.frame_writeAll hall⟩

end Command

/-- A run that is refused changes nothing, and one that ends with the code 1 changes nothing unless
it breaks off while it writes: what it reports, it reports before. One with the code 0 is asked for
help, or writes the files of a bundle, with the default suffixes each at a place of its own under
the output directory, as many as it says, and nothing else. With these suffixes no run changes a
file elsewhere, also where it breaks off. -/
theorem written_files {t t' : FileTree} {environment : Option String} {arguments : List String}
    {ending : Command.Ending} (h : Command.run t environment arguments = (ending, t')) :
    (ending.exitCode = 1 → t' = t ∨ ∃ config b f,
      Command.Reads t environment arguments config b ∧
      Command.BreaksOff t config b ending f) ∧
    (∀ r, ending = .refused r → t' = t) ∧
    (ending.exitCode = 0 → ending = .refused .help ∨ ∃ r config b, ending = .finished r ∧
      Command.Reads t environment arguments config b ∧
      (config.suffixes = Config.defaultSuffixes → Command.Writes t t' config b r)) ∧
    ∀ request config, Command.Request.ofArguments arguments = .ok request →
      Command.configOf t environment request = .ok config →
      config.suffixes = Config.defaultSuffixes →
      FileTree.Frame t t' {p | ∃ rest, rest ≠ [] ∧ p = t.placeAt config.output ++ rest} := by
  rcases Command.run_cases h with ⟨rfl, hnot⟩ | ⟨config, b, written, hreads, hwrite, hending⟩
  · refine ⟨fun _ => .inl rfl, fun _ _ => rfl, fun hcode => ?_, fun _ _ _ _ _ => .refl _ _⟩
    exact (Command.Ending.exitCode_eq_zero.1 hcode).imp_right fun ⟨r, hr⟩ => absurd hr (hnot r)
  obtain ⟨⟨request, hrequest, hconfig⟩, cache, hload⟩ := hreads
  refine ⟨?_, ?_, ?_, ?_⟩
  · intro hcode
    obtain ⟨f, hf⟩ := Command.Ending.exitCode_eq_one.1 hcode
    rcases hending with ⟨paths, -, rfl⟩ | ⟨g, rfl, rfl⟩
    · cases hf
    · have hfails := Emission.failsOnly_write (P := (·.isReported = false)) (fun _ => rfl) t b
        config.output g (by rw [hwrite])
      exact .inr ⟨config, b, g, ⟨⟨request, hrequest, hconfig⟩, cache, hload⟩,
        ⟨rfl, hfails, by rw [hwrite]⟩⟩
  · rintro r rfl
    rcases hending with ⟨paths, -, hend⟩ | ⟨g, -, hend⟩ <;> cases hend
  · intro hcode
    refine (Command.Ending.exitCode_eq_zero.1 hcode).imp_right fun ⟨r, hr⟩ => ?_
    rcases hending with ⟨paths, rfl, rfl⟩ | ⟨g, -, rfl⟩
    · obtain rfl := Command.Ending.finished.inj hr
      exact ⟨_, config, b, rfl, ⟨⟨request, hrequest, hconfig⟩, cache, hload⟩, fun hsuffixes =>
        Command.writes_of_write hload hsuffixes hwrite⟩
    · cases hr
  · intro request' config' hrequest' hconfig' hsuffixes
    obtain rfl := Except.ok.inj (hrequest.symm.trans hrequest')
    obtain rfl := Except.ok.inj (hconfig.symm.trans hconfig')
    exact Emission.frame_output (Command.hasPlaces_load hload hsuffixes) t config.output hwrite

/-- A folder with one document, of a schema and an operation. -/
def petsTree : FileTree :=
  (FileTree.empty ["work".toList]).addFile ["work".toList, "api.json".toList] (.text
    ("\x7b\"paths\":\x7b\"/pets\":\x7b\"get\":\x7b\"responses\":\x7b\x7d\x7d\x7d\x7d,\"components\":" ++
      "\x7b\"schemas\":\x7b\"Pet\":\x7b\"type\":\"string\"\x7d\x7d\x7d\x7d"))

def petsConfig : Config := ⟨"api.json", "out", Config.defaultSuffixes, true⟩

theorem written_files_pets : ∃ report t',
    Command.run petsTree none ["api.json", "-o", "out"] = (.finished ⟨report,
      ["out/model/Pet.ts", "out/model/index.ts", "out/operations.ts"]⟩, t') ∧
    report = "Generated 3 files in out (1 declarations)\n" ∧
    ∃ b, Command.Writes petsTree t' petsConfig b ⟨report,
      ["out/model/Pet.ts", "out/model/index.ts", "out/operations.ts"]⟩ := by
  have hending : (Command.run petsTree none ["api.json", "-o", "out"]).1 =
      .finished ⟨"Generated 3 files in out (1 declarations)\n",
        ["out/model/Pet.ts", "out/model/index.ts", "out/operations.ts"]⟩ := by decide +kernel
  generalize hrun : Command.run petsTree none ["api.json", "-o", "out"] = result at hending
  obtain ⟨ending, t'⟩ := result
  obtain rfl : ending = _ := hending
  obtain ⟨-, -, hzero, -⟩ := written_files hrun
  obtain hhelp | ⟨r, config, b, hr, ⟨⟨request, hrequest, hconfig⟩, -⟩, hwrites⟩ := hzero rfl
  · cases hhelp
  obtain rfl := Command.Ending.finished.inj hr
  obtain rfl : Command.Request.mk (some "api.json") (some "out") none = request :=
    Except.ok.inj ((by decide +kernel : Command.Request.ofArguments ["api.json", "-o", "out"] =
      .ok ⟨some "api.json", some "out", none⟩).symm.trans hrequest)
  obtain rfl : petsConfig = config := Except.ok.inj ((by decide +kernel :
    Command.configOf petsTree none ⟨some "api.json", some "out", none⟩ = .ok petsConfig).symm.trans
      hconfig)
  exact ⟨_, _, rfl, rfl, b, hwrites rfl⟩

/-- A folder with one document, of two schemas, and with a folder where the file of the second is to
be. -/
def tagsTree : FileTree :=
  ((FileTree.empty ["work".toList]).addFile ["work".toList, "api.json".toList] (.text
    ("\x7b\"components\":\x7b\"schemas\":\x7b\"Pet\":\x7b\"type\":\"string\"\x7d," ++
      "\"Tag\":\x7b\"type\":\"string\"\x7d\x7d\x7d\x7d"))).addFolders
    ["work".toList, "out".toList, "model".toList, "Tag.ts".toList]

/-- A run that cannot write the second file ends with the code 1, and the first one is there. -/
theorem written_files_broken_off :
    let written := Command.run tagsTree none ["api.json", "-o", "out"]
    let place := ["work".toList, "out".toList, "model".toList, "Pet.ts".toList]
    written.1.exitCode = 1 ∧ tagsTree.entry? place = none ∧
      FileTree.entry? written.2 place = some (.file (.text
        "/**\n * Generated by typegen.\n * Do not edit manually.\n */\n\nexport type Pet = string;\n")) := by
  decide +kernel

end ApiTypes

import ApiTypes.Proofs.Entries
import ApiTypes.Proofs.Folders
import ApiTypes.Proofs.Loading
import ApiTypes.Proofs.Origin

/-!
# What names stand for in files

* `Layout.importPath_leads` : the path of an import line leads from the folder of its file to the
  declaration;
* `Volume.bound` : the document whose declaration a name stands for in a file;
* `Bundle.Binds` : the file of a declaration says so;
* `imports_bound` : for every import of every declaration, the file does. Of several imports of one
  name the first counts, and the declaration's own name counts before them all.
-/

namespace ApiTypes

/-! ## The first of each name -/

/-- Of the elements of one name, the first alone stays. -/
theorem filter_firstOfName {α : Type} (name : α → String) {as : List α} {a : α} {n : String}
    (h : as.find? (name · = n) = some a) : (firstOfName name as).filter (name · = n) = [a] := by
  induction as with
  | nil => cases h
  | cons first rest ih =>
    rw [firstOfName]
    by_cases hn : name first = n
    · obtain rfl : first = a := by simpa [hn] using h
      have hnone :
          ((firstOfName name rest).filter (name · ≠ name first)).filter (name · = n) = [] := by
        rw [List.filter_filter, List.filter_eq_nil_iff]
        intro b _ hb
        simp [hn] at hb
      rw [List.filter_cons_of_pos (by simp [hn]), hnone]
    · have hrest : rest.find? (name · = n) = some a := by simpa [hn] using h
      rw [List.filter_cons_of_neg (by simp [hn]), List.filter_filter, ← ih hrest]
      refine List.filter_congr fun b _ => ?_
      by_cases hb : name b = n
      · simp [hb, Ne.symm hn]
      · simp [hb]

namespace Layout

/-! ## Import lines -/

/-- The path of an import goes the way to what it imports. -/
theorem segments_importPath (source destination name : String) :
    Path.segments (importPath source destination name).toList =
        Path.way (Path.join destination name).toList source.toList ∧
      Path.isAbsolute (importPath source destination name).toList = false := by
  have hsegments := Path.segments_relativeChars (Path.join destination name).toList source.toList
  have hrelative := Path.isAbsolute_relativeChars (Path.join destination name).toList source.toList
  unfold importPath Path.relative
  dsimp only
  split_ifs
  · rw [String.toList_ofList]
    exact ⟨hsegments, hrelative⟩
  · have hmark : "./".toList = ['.', '/'] := by decide
    rw [String.toList_append, hmark, String.toList_ofList]
    exact ⟨(Path.segments_dot_slash _).trans hsegments, rfl⟩

/-- The path of an import line leads from the folder of its file to what it imports. -/
theorem importPath_leads {source : String} (hsource : Path.Downward source)
    (destination name : String) :
    Path.reduced (Path.join source (importPath source destination name)).toList =
      Path.reduced (Path.join destination name).toList := by
  obtain ⟨hsegments, hrelative⟩ := segments_importPath source destination name
  rw [Path.join, String.toList_ofList]
  exact Path.reduced_join_relative hsource _ hrelative hsegments

/-- An import is in the first line of its name, if the name is imported at all. -/
theorem filter_importLines {imports : List Import} {own : String} {dirs : Folders}
    {excluded n : String} (hn : n ≠ excluded) {i : Import}
    (h : imports.find? (·.name = n) = some i) :
    (importLines imports own dirs (some excluded)).filter (·.name = n) =
      [⟨n, importPath own (folderOf own dirs i) n⟩] := by
  have hname : i.name = n := by simpa using List.find?_some h
  have hkept : (imports.filter fun i => some i.name ≠ some excluded).find? (·.name = n) =
      some i := by
    rw [List.find?_filter, ← h]
    congr 1
    funext j
    by_cases hj : j.name = n
    · simp [hj, hn]
    · simp [hj]
  unfold importLines
  rw [List.filter_map]
  change ((firstOfName Import.name _).filter (Import.name · = n)).map _ = _
  rw [filter_firstOfName _ hkept, List.map_singleton, hname]

/-- No line imports the excluded name. -/
theorem ne_excluded_of_mem_importLines {imports : List Import} {own : String} {dirs : Folders}
    {excluded : String} {l : ImportLine} (h : l ∈ importLines imports own dirs (some excluded)) :
    l.name ≠ excluded := by
  obtain ⟨i, hi, rfl⟩ := List.mem_map.1 h
  have hkept := of_decide_eq_true (List.mem_filter.1 (firstOfName_subset _ _ hi)).2
  exact fun heq => hkept (congrArg some heq)

end Layout

/-! ## What names are bound to -/

/-- The document that declares an import of a declaration in a document. -/
def Import.home (own : String) (i : Import) : String := i.document.getD own

/-- The document whose declaration a name stands for in the file of a declaration: its own name for
itself, any other for the first import of it. -/
def Volume.bound (v : Volume) (d : Declaration) (name : String) : String :=
  if name = d.name then v.document
  else ((d.imports.find? (·.name = name)).map (Import.home v.document)).getD v.document

/-- In the file of a declaration, a name stands for the declaration of that name in a document: it
is declared there and not imported, or it is imported in one line, whose path leads there.

All that is asked of the path is the place that it leads to from the folder of the file. So `.` and
`..` are accepted too; they are written where this folder has the name of the declaration, or is
below one that has, and module resolution takes them for folders. -/
def Bundle.Binds (b : Bundle) (v : Volume) (d : Declaration) (name key : String) : Prop :=
  let lines := Layout.importLines d.imports v.folder b.folders (some d.name)
  (name = d.name ∧ key = v.document ∧ ∀ l ∈ lines, l.name ≠ name) ∨
  (name ≠ d.name ∧ ∃ path folder, lines.filter (·.name = name) = [⟨name, path⟩] ∧
    Keyed.get? b.folders key = some folder ∧
    Path.reduced (Path.join v.folder path).toList = Path.reduced (Path.join folder name).toList)

section
variable {config : Config} {target : String} {documents : Registry} {b : Bundle}

/-- The declarations of a document are those of one that is loaded, in the folder of that one. -/
theorem Bundle.volume_folder (h : Bundle.make config target documents = .ok b) {v : Volume}
    (hv : v ∈ b.volumes) :
    v.folder = folderOf b.folders v.document ∧
      (v.document = target ∨ v.document ∈ keysOf documents) := by
  obtain ⟨own, others, -, -, -, -, hvolumes, hothers⟩ := make_ok h
  rw [hvolumes] at hv
  rcases List.mem_cons.1 hv with rfl | hv
  · exact ⟨rfl, .inl rfl⟩
  · obtain ⟨key, hkey, ds, -, rfl⟩ := exists_left_of_forall₂ hothers hv
    exact ⟨rfl, .inr (List.mem_filter.1 hkey).1⟩

/-- What is imported from a document is imported from a loaded one. -/
theorem Bundle.mem_keys_of_import (h : Bundle.make config target documents = .ok b) {i : Import}
    (hi : i ∈ b.imports) {key : String} (hkey : i.document = some key) :
    key ∈ documents.map Prod.fst := by
  obtain ⟨ctx, ref, info, rfl, -, hinfo, rfl⟩ := make_sourced h i hi (by simp [hkey])
  obtain rfl : info.document = key := by simpa using hkey
  obtain ⟨document, -, -, -, hdocument, -⟩ := Reference.info_reads hinfo
  exact Keyed.mem_keys_of_get? (Library.document?_eq_some.1 hdocument).1

end

/-- The folder that an import is looked for in is that of the document which declares it. -/
theorem Layout.folderOf_eq {dirs : Folders} {document own : String}
    (hown : Keyed.get? dirs document = some own) {i : Import}
    (hloaded : ∀ key, i.document = some key →
      key ≠ "" ∧ ∃ folder, Keyed.get? dirs key = some folder) :
    Keyed.get? dirs (i.home document) = some (folderOf own dirs i) := by
  unfold Import.home folderOf
  cases hdocument : i.document with
  | none => exact hown
  | some key =>
    obtain ⟨hne, folder, hfolder⟩ := hloaded key hdocument
    have hkept : (some key).filter (· ≠ "") = some key := by simp [hne]
    rw [hkept]
    dsimp only
    rw [Option.getD_some, hfolder, Option.getD_some]

/-- For every import of every declaration, the file of the declaration says what its name stands
for: of several imports of one name the first counts, before them all the declaration's own name. So
it is what the import means, unless another import or the declaration takes the name for another
document. -/
theorem imports_bound {t : FileTree} {cache cache' : DocumentCache} {config : Config} {b : Bundle}
    (h : Bundle.load t cache config = (.ok b, cache')) :
    ∀ v ∈ b.volumes, ∀ d ∈ v.declarations, ∀ i ∈ d.imports,
      b.Binds v d i.name (v.bound d i.name) ∧
      ((i.name = d.name → i.home v.document = v.document) →
        (∀ j ∈ d.imports, j.name = i.name → j.home v.document = i.home v.document) →
        b.Binds v d i.name (i.home v.document)) := by
  intro v hv d hd i hi
  obtain ⟨target, documents, hgather, hmake⟩ := Bundle.load_ok h
  obtain ⟨-, -, hloading⟩ := Library.gather_ok hgather
  obtain ⟨hfolder, hdocument⟩ := Bundle.volume_folder hmake hv
  have hfolders : b.folders = Layout.folders target (Bundle.keysOf documents) := by
    obtain ⟨-, -, -, heq, -⟩ := Bundle.make_ok hmake
    exact heq
  obtain ⟨own, hown, hbelow⟩ := Layout.folders_ok hdocument
  rw [← hfolders] at hown
  obtain rfl : v.folder = own := by rw [hfolder, Bundle.folderOf, hown, Option.getD_some]
  have hloaded : ∀ j ∈ d.imports, ∀ key, j.document = some key →
      key ≠ "" ∧ ∃ folder, Keyed.get? b.folders key = some folder := by
    intro j hj key hkey
    have hmem := Bundle.mem_keys_of_import hmake (Bundle.mem_imports hv hd hj) hkey
    have hplace : key = target ∨ key ∈ Bundle.keysOf documents :=
      .inr (List.mem_mergeSort.2 hmem)
    obtain ⟨folder, hfound, -⟩ := Layout.folders_ok hplace
    refine ⟨fun hempty => ?_, folder, hfolders ▸ hfound⟩
    have habsolute := (hloading.normal key (List.mem_append_left _ hmem)).isAbsolute
    rw [hempty] at habsolute
    cases habsolute
  obtain ⟨first, hfirst⟩ : ∃ first, d.imports.find? (·.name = i.name) = some first :=
    Option.isSome_iff_exists.1 (List.find?_isSome.2 ⟨i, hi, by simp⟩)
  have hfirstMem : first ∈ d.imports := List.mem_of_find?_eq_some hfirst
  have hbound : b.Binds v d i.name (v.bound d i.name) := by
    unfold Volume.bound
    by_cases hname : i.name = d.name
    · rw [if_pos hname]
      exact .inl ⟨hname, rfl, fun l hl => hname ▸ Layout.ne_excluded_of_mem_importLines hl⟩
    · rw [if_neg hname, hfirst]
      exact .inr ⟨hname, _, _, Layout.filter_importLines hname hfirst,
        Layout.folderOf_eq hown (hloaded first hfirstMem), Layout.importPath_leads hbelow _ _⟩
  refine ⟨hbound, fun hself hsame => ?_⟩
  have hmeant : v.bound d i.name = i.home v.document := by
    unfold Volume.bound
    split_ifs with hname
    · exact (hself hname).symm
    · rw [hfirst]
      exact hsame first hfirstMem (by simpa using List.find?_some hfirst)
  exact hmeant ▸ hbound

/-! ## Two documents with one name -/

/-- A file whose schema `Pet` is made of the schemas `Pet` and `Tag` of another file. -/
def namesakes : FileTree :=
  let api := "\x7b\"$defs\":\x7b\"Pet\":\x7b\"allOf\":[\x7b\"$ref\":\"pets.json#/$defs/Pet\"\x7d," ++
    "\x7b\"$ref\":\"pets.json#/$defs/Tag\"\x7d]\x7d\x7d\x7d"
  let pets := "\x7b\"$defs\":\x7b\"Pet\":\x7b\"type\":\"string\"\x7d," ++
    "\"Tag\":\x7b\"type\":\"string\"\x7d\x7d\x7d"
  ((FileTree.empty []).addFile ["api.json".toList] (.text api)).addFile
    ["pets.json".toList] (.text pets)

def namesakeConfig : Config := ⟨"api.json", "out", Config.defaultSuffixes, true⟩

theorem namesakes_load : ∃ b cache v d,
    Bundle.load namesakes [] namesakeConfig = (.ok b, cache) ∧ v ∈ b.volumes ∧
      d ∈ v.declarations ∧ v.document = "/api.json" ∧ d.name = "Pet" ∧
      d.imports = [⟨"Pet", some "/pets.json"⟩, ⟨"Tag", some "/pets.json"⟩] := by
  obtain ⟨b, cache, hload, hp⟩ := @Bundle.exists_load namesakes namesakeConfig "/api.json"
    ["/api.json", "/pets.json"]
    (fun b => decide (∃ v ∈ b.volumes, ∃ d ∈ v.declarations, v.document = "/api.json" ∧
      d.name = "Pet" ∧ d.imports = [⟨"Pet", some "/pets.json"⟩, ⟨"Tag", some "/pets.json"⟩]))
    (by decide +kernel) (by decide +kernel)
    (fun documents hdocuments hsorted => by
      unfold Bundle.make
      rw [hsorted, hdocuments]
      decide +kernel)
  obtain ⟨v, hv, d, hd, hfound⟩ := of_decide_eq_true hp
  exact ⟨b, cache, v, d, hload, hv, hd, hfound⟩

/-- A name of another document that is taken once is bound to that document. -/
theorem imports_bound_tag : ∃ b cache v d,
    Bundle.load namesakes [] namesakeConfig = (.ok b, cache) ∧ v ∈ b.volumes ∧
      d ∈ v.declarations ∧ ⟨"Tag", some "/pets.json"⟩ ∈ d.imports ∧
      b.Binds v d "Tag" "/pets.json" := by
  obtain ⟨b, cache, v, d, hload, hv, hd, -, hname, himports⟩ := namesakes_load
  have htag : ⟨"Tag", some "/pets.json"⟩ ∈ d.imports := by
    rw [himports]
    exact List.mem_cons_of_mem _ (List.mem_singleton_self _)
  refine ⟨b, cache, v, d, hload, hv, hd, htag, ?_⟩
  refine (imports_bound hload v hv d hd _ htag).2 (fun heq => ?_) fun j hj hsame => ?_
  · rw [hname] at heq
    exact absurd heq (by decide)
  · rw [himports] at hj
    rcases List.mem_cons.1 hj with rfl | hj
    · exact absurd hsame (by decide)
    · rw [List.mem_singleton.1 hj]

/-- A name of another document that the declaration has itself is not. -/
theorem imports_bound_own_name : ∃ b cache v d i,
    Bundle.load namesakes [] namesakeConfig = (.ok b, cache) ∧ v ∈ b.volumes ∧
      d ∈ v.declarations ∧ i ∈ d.imports ∧ ¬ b.Binds v d i.name (i.home v.document) := by
  obtain ⟨b, cache, v, d, hload, hv, hd, hdocument, hname, himports⟩ := namesakes_load
  refine ⟨b, cache, v, d, ⟨"Pet", some "/pets.json"⟩, hload, hv, hd, ?_, ?_⟩
  · rw [himports]
    exact List.mem_cons_self ..
  · rintro (⟨-, hkey, -⟩ | ⟨hne, -⟩)
    · rw [hdocument] at hkey
      exact absurd hkey (by decide)
    · exact hne hname.symm

end ApiTypes

import ApiTypes.Proofs.MovedBundles
import ApiTypes.Proofs.Rebasing

/-!
# The same documents under another root

* `Library.Relocates.moves_rebased` : what is loaded under another root is the same, under keys that
  are in the same order and that documents are named after in the same way;
* `Bundle.SameFiles` : two bundles of which the same files are made;
* `relocation` : from the same entry document under two roots, they are. Two slips are kept out: a
  document is named after what comes before the first `#` of its key, and one without a name in its
  path gets a folder that is named after the root;
* `relocation_marked` : the first of them.
-/

namespace ApiTypes

/-! ## Registries -/

/-- The key of what a reference in a file names, under a root. -/
theorem Reference.documentKey_absolute {root p : String} {ctx : Context} {part : String}
    (hroot : Path.isAbsolute root.toList = true) (hp : Path.Inner p)
    (hcurrent : ctx.current = Path.absolute root p) (hpart : part ≠ "")
    (hweb : Url.isWeb part = false) (hinside : Path.Inside (Path.join (Path.directory p) part)) :
    documentKey ctx part = .ok (Path.absolute root (Path.join (Path.directory p) part)) := by
  have hcurrentWeb : Url.isWeb ctx.current = false :=
    Url.isWeb_of_isAbsolute (hcurrent ▸ (Path.isNormal_absolute hroot p).isAbsolute)
  rw [documentKey, if_neg hpart, if_neg (by simp [hweb]), if_neg (by simp [hcurrentWeb]), hcurrent,
    Path.absolute_join_directory hroot hp hinside]

namespace Library.Relocates

variable {t t' : FileTree} {root root' : String} (h : Relocates t t' root root')
include h

/-- The documents that are loaded under the other root are the same under other keys. -/
theorem mirrors_rebased {known : List String} {cache documents : Registry}
    (hloading : Loading t known cache documents [])
    (hread : ∀ e ∈ documents, read t e.1 = .ok e.2)
    (hunder : ∀ key ∈ documents.map Prod.fst, Under root key) :
    documents.Mirrors (Path.rebase root root') (· ∈ documents.map Prod.fst)
      (rebased root root' documents) := by
  have hinjective : ∀ key key', key ∈ documents.map Prod.fst → key' ∈ documents.map Prod.fst →
      Path.rebase root root' key = Path.rebase root root' key' → key = key' :=
    fun key key' hkey hkey' => rebase_injective h.here.isAbsolute h.there.isAbsolute
      (hunder key hkey) (hunder key' hkey')
  refine ⟨hinjective, fun key hkey => ?_, ?_⟩
  · rw [Registry.document?, Registry.document?, rebased, Keyed.get?_map hinjective
      (fun e he => List.mem_map.2 ⟨e, he, rfl⟩) hkey]
  · intro key document hkey hdocument ref href ctx ctx' hctx hctx' found hfound hloaded
    have hmem := Registry.mem_keys_of_document? hloaded
    have hweb := hloading.isWeb_of_documentKey hfound hmem
    refine ⟨hmem, ?_⟩
    by_cases hlocal : (Pointer.split ref).1 = ""
    · rw [Reference.documentKey, if_pos hlocal] at hfound ⊢
      rw [hctx', ← hctx, Except.ok.inj hfound]
    · have hvalue := hread _ hdocument
      obtain ⟨p, hp, rfl⟩ : ∃ p, Path.Inner p ∧ Path.absolute root p = key := by
        obtain ⟨p, hp, rfl⟩ := hunder key hkey
        exact exists_inner_of_read h.here hp hvalue
      have hinside := h.stays p document hp hvalue ref href hlocal hweb
      rw [Reference.documentKey_absolute h.here.isAbsolute hp hctx hlocal hweb hinside] at hfound
      rw [← Except.ok.inj hfound, h.rebase_absolute hinside]
      rw [h.rebase_absolute hp.inside] at hctx'
      exact Reference.documentKey_absolute h.there.isAbsolute hp hctx' hlocal hweb hinside

theorem moves_rebased (hmark : '#' ∉ root.toList) (hmark' : '#' ∉ root'.toList)
    (hnamed : NamesDocuments t root) {known : List String} {cache documents : Registry}
    (hloading : Loading t known cache documents [])
    (hread : ∀ e ∈ documents, read t e.1 = .ok e.2)
    (hunder : ∀ key ∈ documents.map Prod.fst, Under root key) :
    documents.Moves (Path.rebase root root') (rebased root root' documents) := by
  have hinner : ∀ key ∈ documents.map Prod.fst, ∃ p, Path.Inner p ∧ Path.absolute root p = key ∧
      Path.segments (Path.slashed p.toList) ≠ [] := by
    intro key hkey
    obtain ⟨e, he, rfl⟩ := List.mem_map.1 hkey
    obtain ⟨p, hp, hsame⟩ := hunder _ hkey
    obtain ⟨q, hq, hsame'⟩ := exists_inner_of_read h.here hp (hsame ▸ hread e he)
    refine ⟨q, hq, hsame'.trans hsame, hnamed q e.2 hq ?_⟩
    rw [hsame', hsame]
    exact hread e he
  refine ⟨h.mirrors_rebased hloading hread hunder, keys_rebased root root' documents, ?_, ?_, ?_, ?_⟩
  · intro key hkey key' hkey'
    obtain ⟨p, hp, rfl, -⟩ := hinner key hkey
    obtain ⟨q, hq, rfl, -⟩ := hinner key' hkey'
    rw [decide_eq_decide, h.rebase_absolute hp.inside, h.rebase_absolute hq.inside,
      Path.absolute_le h.here.isAbsolute hp hq, Path.absolute_le h.there.isAbsolute hp hq]
  · intro key hkey
    obtain ⟨p, hp, rfl, -⟩ := hinner key hkey
    rw [h.rebase_absolute hp.inside,
      Reference.documentName_absolute h.here.isAbsolute hp hmark,
      Reference.documentName_absolute h.there.isAbsolute hp hmark']
  · intro key hkey
    obtain ⟨p, hp, rfl, hname⟩ := hinner key hkey
    rw [h.rebase_absolute hp.inside, Name.folder_absolute h.here.isAbsolute hp hname,
      Name.folder_absolute h.there.isAbsolute hp hname]
  · intro key hkey
    obtain ⟨p, hp, rfl, -⟩ := hinner key hkey
    have hne : ∀ base : String, Path.isAbsolute base.toList = true → Path.absolute base p ≠ "" := by
      intro base hbase hempty
      have habsolute := (Path.isNormal_absolute hbase p).isAbsolute
      rw [hempty] at habsolute
      cases habsolute
    rw [h.rebase_absolute hp.inside]
    exact ⟨hne root h.here.isAbsolute, hne root' h.there.isAbsolute⟩

end Library.Relocates

/-! ## Runs -/

/-- Two bundles of which the same files are made: with the same texts at the same places of an output
directory, in the same order, whatever the tree that they are written to. -/
structure Bundle.SameFiles (b b' : Bundle) : Prop where
  models : ∀ output, Emission.modelFiles b output = Emission.modelFiles b' output
  operations : ∀ output, Emission.operationsFile b output = Emission.operationsFile b' output
  written : ∀ u output, Emission.write u b output = Emission.write u b' output
  reported : ∀ output paths, Emission.report b output paths = Emission.report b' output paths

/-- A configuration with another entry document. -/
def Config.entering (config : Config) (input : String) : Config := { config with input }

theorem Bundle.make_entering (config : Config) (input target : String) (documents : Registry) :
    make (config.entering input) target documents = make config target documents := by
  unfold make
  rfl

theorem Library.Relocates.load_rebased {t t' : FileTree} {root root' : String}
    (h : Relocates t t' root root') (hmark : '#' ∉ root.toList) (hmark' : '#' ∉ root'.toList)
    (hnamed : NamesDocuments t root) {config : Config} {entry : String}
    (hentry : Path.Inside entry) {b : Bundle} {cache : DocumentCache}
    (hload : Bundle.load t [] (config.entering (Path.below root entry)) = (.ok b, cache)) :
    ∃ b' cache', Bundle.load t' [] (config.entering (Path.below root' entry)) = (.ok b', cache') ∧
      b.SameFiles b' := by
  obtain ⟨target, documents, hgather, hmake⟩ := Bundle.load_ok hload
  obtain ⟨-, htarget, hloading⟩ := gather_ok hgather
  have hread := gather_reads (fun _ _ hget => by cases hget) hgather
  obtain ⟨rfl, hunder, cache', hgather'⟩ := h.gather_rebased hentry hgather
  have hmoves := h.moves_rebased hmark hmark' hnamed hloading hread hunder
  have hmake' := Bundle.make_moved hmoves hloading.closed_registry htarget _ b hmake
  have hload' := Bundle.load_eq (config.entering (Path.below root' entry)) hgather'
  rw [Bundle.make_entering] at hmake'
  rw [Bundle.make_entering, ← h.rebase_absolute hentry, hmake'] at hload'
  refine ⟨_, cache', hload', ?_⟩
  constructor
  case models => exact fun output => (Emission.modelFiles_moved hmoves hmake htarget output).symm
  case operations =>
    exact fun output => (Emission.operationsFile_moved hmoves hmake htarget output).symm
  case written => exact fun u output => (Emission.write_moved hmoves hmake htarget u output).symm
  case reported =>
    intro output paths
    exact congrArg (fun size : Nat => "Generated " ++ toString paths.length ++ " files in " ++
      output ++ " (" ++ toString size ++ " declarations)\n") b.size_moved.symm

/-- The files that are made do not depend on where the documents are: from the same entry document
under two roots that hold the same, with no document that refers to a file outside, either both runs
make the same files, whatever the settings, or both fail. This is so for roots without `#`, after
which a key is not read when a document is named, and for documents with a name in their path. -/
theorem relocation {t t' : FileTree} {root root' : String}
    (h : Library.Relocates t t' root root') (hmark : '#' ∉ root.toList)
    (hmark' : '#' ∉ root'.toList) (hnamed : Library.NamesDocuments t root) (config : Config)
    {entry : String} (hentry : Path.Inside entry) :
    (∃ b b' cache cache',
      Bundle.load t [] (config.entering (Path.below root entry)) = (.ok b, cache) ∧
      Bundle.load t' [] (config.entering (Path.below root' entry)) = (.ok b', cache') ∧
      b.SameFiles b') ∨
    ∃ f f' cache cache',
      Bundle.load t [] (config.entering (Path.below root entry)) = (.error f, cache) ∧
      Bundle.load t' [] (config.entering (Path.below root' entry)) = (.error f', cache') := by
  have hnamed' : Library.NamesDocuments t' root' := fun p document hp hread =>
    hnamed p document hp
      (Library.read_rebased h.there h.here (fun q hq => (h.same q hq).symm) hp _ hread)
  generalize hrun : Bundle.load t [] (config.entering (Path.below root entry)) = run
  generalize hrun' : Bundle.load t' [] (config.entering (Path.below root' entry)) = run'
  obtain ⟨outcome, cache⟩ := run
  obtain ⟨outcome', cache'⟩ := run'
  cases outcome with
  | ok b =>
    obtain ⟨b', kept, hload, hsame⟩ := h.load_rebased hmark hmark' hnamed hentry hrun
    exact .inl ⟨b, b', cache, kept, rfl, hrun'.symm.trans hload, hsame⟩
  | error f =>
    cases outcome' with
    | ok b' =>
      obtain ⟨b, kept, hload, -⟩ := h.symm.load_rebased hmark' hmark hnamed' hentry hrun'
      rw [hrun] at hload
      cases hload
    | error f' => exact .inr ⟨f, f', cache, cache', rfl, rfl⟩

/-! ## Given trees -/

namespace FileTree

variable {t t' : FileTree} {base base' : Place}

/-- The ways from a place to what is below it. -/
def waysBelow (t : FileTree) (base : Place) : List Place :=
  t.entries.filterMap fun e => if base.isPrefixOf e.1 then some (e.1.drop base.length) else none

theorem mem_waysBelow {p : Place} {e : Entry} (hp : p ≠ []) (h : t.entry? (base ++ p) = some e) :
    p ∈ t.waysBelow base := by
  unfold entry? at h
  rw [if_neg (by simp [hp])] at h
  refine List.mem_filterMap.2 ⟨_, Keyed.mem_of_get? h, ?_⟩
  rw [if_pos (by simp), List.drop_left]

theorem sameBelow_of_waysBelow (h : ∀ p ∈ t.waysBelow base ++ t'.waysBelow base',
    t.entry? (base ++ p) = t'.entry? (base' ++ p)) : t.SameBelow t' base base' := by
  intro p hp
  cases hentry : t.entry? (base ++ p) with
  | some e =>
    rw [← hentry]
    exact h p (List.mem_append_left _ (mem_waysBelow hp hentry))
  | none =>
    cases hentry' : t'.entry? (base' ++ p) with
    | some e =>
      rw [← hentry, ← hentry']
      exact h p (List.mem_append_right _ (mem_waysBelow hp hentry'))
    | none => rfl

end FileTree

namespace Library

variable {t : FileTree} {root : String}

/-- The documents of a tree. -/
def documentsOf (t : FileTree) : Registry :=
  t.keys.filterMap fun key => (read t key).toOption.map (key, ·)

theorem mem_documentsOf {key : String} {document : Value} (hkey : Path.IsNormal key)
    (h : read t key = .ok document) : (key, document) ∈ documentsOf t :=
  List.mem_filterMap.2 ⟨key, (read_ok hkey h).1, by rw [h]; rfl⟩

/-- References that are written without `..` stay inside every folder. -/
theorem staysInside_of_downward (hroot : Path.isAbsolute root.toList = true)
    (h : ∀ e ∈ documentsOf t, ∀ ref ∈ e.2.refs,
      Path.isAbsolute (Pointer.split ref).1.toList = false ∧
        Path.parent ∉ Path.segments (Pointer.split ref).1.toList) : StaysInside t root :=
  fun p _ hp hread ref href _ _ => Path.inside_join_directory hp
    (h _ (mem_documentsOf (Path.isNormal_absolute hroot p) hread) ref href)

/-- Documents have names if all files and folders have. -/
theorem namesDocuments_of_name (hroot : t.IsRoot root)
    (h : ∀ e ∈ t.entries, (e.1.getLast?.getD []).any (fun c => c ≠ '/' ∧ c ≠ '\\' ∧ c ≠ '.')) :
    NamesDocuments t root := by
  intro p document hp hread
  obtain ⟨s, hentry⟩ := file_of_read hroot hp.inside hread
  obtain ⟨ss, last, hreduced⟩ := (List.eq_nil_or_concat' (Path.reduced p.toList)).resolve_left hp.ne
  unfold FileTree.entry? at hentry
  rw [if_neg (by simp [hp.ne])] at hentry
  obtain ⟨c, hc, htest⟩ := List.any_eq_true.1 (h _ (Keyed.mem_of_get? hentry))
  obtain ⟨hslash, hback, hdot⟩ := of_decide_eq_true htest
  have hlast : last ∈ Path.segments p.toList := Path.mem_segments_of_mem_reduced
    (hreduced ▸ List.mem_append_right _ (List.mem_singleton_self _))
  rw [hreduced, ← List.append_assoc, List.getLast?_concat, Option.getD_some] at hc
  exact Path.segments_slashed_ne_nil (Text.mem_of_mem_cut (List.mem_filter.1 hlast).1 hc) hslash
    hback hdot

end Library

/-- A file and one that it refers to, under two roots. -/
def shelters : FileTree :=
  let api := "\x7b\"$defs\":\x7b\"Dog\":\x7b\"$ref\":\"pets#/$defs/Pet\"\x7d\x7d\x7d"
  let pets := "\x7b\"$defs\":\x7b\"Pet\":\x7b\"type\":\"string\"\x7d\x7d\x7d"
  let files := fun (t : FileTree) (base : Place) =>
    (t.addFile (base ++ [['a', 'p', 'i']]) (.text api)).addFile (base ++ [['p', 'e', 't', 's']])
      (.text pets)
  files (files (.empty []) [['o', 'n', 'e']]) [['o', 'l', 'd'], ['t', 'w', 'o']]

theorem shelters_relocates : Library.Relocates shelters shelters "/one" "/old/two" where
  here := ⟨by decide +kernel, by decide +kernel, by decide +kernel, by decide +kernel⟩
  there := ⟨by decide +kernel, by decide +kernel, by decide +kernel, by decide +kernel⟩
  same := FileTree.sameBelow_of_waysBelow (by decide +kernel)
  stays := Library.staysInside_of_downward (by decide +kernel) (by decide +kernel)

def shelterConfig : Config := ⟨"", "out", Config.defaultSuffixes, true⟩

theorem relocation_shelters :
    '#' ∉ "/one".toList ∧ '#' ∉ "/old/two".toList ∧
    Library.Relocates shelters shelters "/one" "/old/two" ∧
    Library.NamesDocuments shelters "/one" ∧ Path.Inside "api" ∧
    ∃ b b' cache cache',
      Bundle.load shelters [] (shelterConfig.entering (Path.below "/one" "api")) =
        (.ok b, cache) ∧
      Bundle.load shelters [] (shelterConfig.entering (Path.below "/old/two" "api")) =
        (.ok b', cache') ∧
      b.SameFiles b' ∧ (Emission.modelFiles b "out").map (·.path) =
        ["out/model/Dog.ts", "out/model/index.ts", "out/model/pets/Pet.ts",
          "out/model/pets/index.ts"] := by
  have hnamed : Library.NamesDocuments shelters "/one" :=
    Library.namesDocuments_of_name shelters_relocates.here (by decide +kernel)
  have hentry : Path.Inside "api" := ⟨by decide, by decide⟩
  have hmark : '#' ∉ "/one".toList := by decide
  have hmark' : '#' ∉ "/old/two".toList := by decide
  obtain ⟨b, cache, hload, hp⟩ := @Bundle.exists_load shelters
    (shelterConfig.entering (Path.below "/one" "api")) "/one/api"
    ["/one/api", "/one/pets"]
    (fun b => decide ((Emission.modelFiles b "out").map (·.path) =
      ["out/model/Dog.ts", "out/model/index.ts", "out/model/pets/Pet.ts",
        "out/model/pets/index.ts"]))
    (by decide +kernel) (by decide +kernel)
    (fun documents hdocuments hsorted => by
      unfold Bundle.make
      rw [hsorted, hdocuments]
      decide +kernel)
  refine ⟨hmark, hmark', shelters_relocates, hnamed, hentry, ?_⟩
  rcases relocation shelters_relocates hmark hmark' hnamed shelterConfig hentry with
    ⟨first, b', kept, cache', hfirst, hload', hsame⟩ | ⟨f, f', kept, cache', hfirst, -⟩
  · obtain rfl : b = first := by
      rw [hload] at hfirst
      exact Except.ok.inj (Prod.mk.inj hfirst).1
    exact ⟨b, b', cache, cache', hload, hload', hsame, of_decide_eq_true hp⟩
  · rw [hload] at hfirst
    cases hfirst

/-- A file with one schema under two roots, of which one has a `#` in its name. -/
def markedShelters : FileTree :=
  let pet := "\x7b\"type\":\"string\"\x7d"
  let file := ['p', 'e', 't', '.', 'j', 's', 'o', 'n']
  let work := ['w', 'o', 'r', 'k']
  ((FileTree.empty [work]).addFile [work, ['o', 'n', 'e'], file] (.text pet)).addFile
    [work, ['o', '#', 'n', 'e'], file] (.text pet)

theorem markedShelters_relocates :
    Library.Relocates markedShelters markedShelters "/work/one" "/work/o#ne" where
  here := ⟨by decide +kernel, by decide +kernel, by decide +kernel, by decide +kernel⟩
  there := ⟨by decide +kernel, by decide +kernel, by decide +kernel, by decide +kernel⟩
  same := FileTree.sameBelow_of_waysBelow (by decide +kernel)
  stays := Library.staysInside_of_downward (by decide +kernel) (by decide +kernel)

theorem markedShelters_load : ∃ b cache,
    Bundle.load markedShelters [] (shelterConfig.entering (Path.below "/work/one" "pet.json")) =
      (.ok b, cache) ∧
    (Emission.modelFiles b "out").map (·.path) = ["out/model/Pet.ts", "out/model/index.ts"] := by
  obtain ⟨b, cache, hload, hp⟩ := @Bundle.exists_load markedShelters
    (shelterConfig.entering (Path.below "/work/one" "pet.json")) "/work/one/pet.json"
    ["/work/one/pet.json"]
    (fun b => decide ((Emission.modelFiles b "out").map (·.path) =
      ["out/model/Pet.ts", "out/model/index.ts"]))
    (by decide +kernel) (by decide +kernel)
    (fun documents hdocuments hsorted => by
      unfold Bundle.make
      rw [hsorted, hdocuments]
      decide +kernel)
  exact ⟨b, cache, hload, of_decide_eq_true hp⟩

theorem markedShelters_load_marked : ∃ b cache,
    Bundle.load markedShelters [] (shelterConfig.entering (Path.below "/work/o#ne" "pet.json")) =
      (.ok b, cache) ∧
    (Emission.modelFiles b "out").map (·.path) = ["out/model/O.ts", "out/model/index.ts"] := by
  obtain ⟨b, cache, hload, hp⟩ := @Bundle.exists_load markedShelters
    (shelterConfig.entering (Path.below "/work/o#ne" "pet.json")) "/work/o#ne/pet.json"
    ["/work/o#ne/pet.json"]
    (fun b => decide ((Emission.modelFiles b "out").map (·.path) =
      ["out/model/O.ts", "out/model/index.ts"]))
    (by decide +kernel) (by decide +kernel)
    (fun documents hdocuments hsorted => by
      unfold Bundle.make
      rw [hsorted, hdocuments]
      decide +kernel)
  exact ⟨b, cache, hload, of_decide_eq_true hp⟩

/-- Under a root with a `#` another declaration is made of the same file: it is named after what
comes before. -/
theorem relocation_marked :
    Library.Relocates markedShelters markedShelters "/work/one" "/work/o#ne" ∧
    Library.NamesDocuments markedShelters "/work/one" ∧ Path.Inside "pet.json" ∧
    ∃ b b' cache cache',
      Bundle.load markedShelters [] (shelterConfig.entering (Path.below "/work/one" "pet.json")) =
        (.ok b, cache) ∧
      Bundle.load markedShelters [] (shelterConfig.entering (Path.below "/work/o#ne" "pet.json")) =
        (.ok b', cache') ∧
      (Emission.modelFiles b "out").map (·.path) = ["out/model/Pet.ts", "out/model/index.ts"] ∧
      (Emission.modelFiles b' "out").map (·.path) = ["out/model/O.ts", "out/model/index.ts"] ∧
      ¬ b.SameFiles b' := by
  obtain ⟨b, cache, hload, hpaths⟩ := markedShelters_load
  obtain ⟨b', cache', hload', hpaths'⟩ := markedShelters_load_marked
  have hnamed : Library.NamesDocuments markedShelters "/work/one" :=
    Library.namesDocuments_of_name markedShelters_relocates.here (by decide +kernel)
  refine ⟨markedShelters_relocates, hnamed, ⟨by decide, by decide⟩, b, b', cache, cache', hload,
    hload', hpaths, hpaths', fun hsame => ?_⟩
  rw [hsame.models, hpaths'] at hpaths
  exact absurd hpaths (by decide)

end ApiTypes

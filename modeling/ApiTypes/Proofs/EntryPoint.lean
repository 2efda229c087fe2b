import ApiTypes.Proofs.CrossImports
import ApiTypes.Proofs.Mirrors

/-!
# The same document in two runs

* `DocumentCache.ReadFrom` : a cache keeps what the files hold;
* `Library.gather_reads` : so what is loaded with it is what the files hold;
* `Registry.mirrors_of_read` : two registries of what the files hold are alike in the documents that
  both have;
* `entry_points` : whichever documents two runs over the same files start from, the declarations of a
  document that both load are the same.
-/

namespace ApiTypes

/-! ## What is loaded is what the files hold -/

/-- What a cache keeps is what the files hold. -/
def DocumentCache.ReadFrom [Library.Formats] (t : FileTree) (cache : DocumentCache) : Prop :=
  ∀ key document, Registry.document? cache key = some document → Library.read t key = .ok document

namespace Library

variable [Formats] {t : FileTree}

theorem load_reads {cache cache' : DocumentCache} {key : String} {document : Value}
    (hkey : Path.IsNormal key) (hcache : cache.ReadFrom t)
    (h : DocumentCache.load cache t key = (.ok document, cache')) :
    read t key = .ok document ∧ cache'.ReadFrom t := by
  have hsame : t.absolute key = key := Path.absolute_of_isNormal hkey _
  rcases load_cases h with ⟨hkept, rfl⟩ | ⟨-, hread, rfl⟩
  · rw [hsame] at hkept
    exact ⟨hcache key _ hkept, hcache⟩
  · rw [hsame] at hread ⊢
    refine ⟨hread, fun k kept hk => ?_⟩
    rcases document?_put_cases hk with ⟨rfl, rfl⟩ | hbefore
    · exact hread
    · exact hcache k kept hbefore

theorem gatherFrom_reads {fuel : Nat} {cache cache' : DocumentCache} {loaded result : Registry}
    {queue : List String} (hcache : cache.ReadFrom t)
    (hloaded : ∀ e ∈ loaded, read t e.1 = .ok e.2) (hqueue : ∀ key ∈ queue, Path.IsNormal key)
    (h : gatherFrom t fuel cache loaded queue = (.ok result, cache')) :
    ∀ e ∈ result, read t e.1 = .ok e.2 := by
  induction fuel generalizing cache loaded queue with
  | zero =>
    rw [gatherFrom] at h
    obtain ⟨rfl, -⟩ : loaded = result ∧ cache = cache' := by simpa using h
    exact hloaded
  | succ fuel ih =>
    cases queue with
    | nil =>
      rw [gatherFrom] at h
      · obtain ⟨rfl, -⟩ : loaded = result ∧ cache = cache' := by simpa using h
        exact hloaded
      · simp
    | cons key queue =>
      rw [List.forall_mem_cons] at hqueue
      rw [gatherFrom] at h
      split at h
      · simp at h
      · rename_i document kept hload
        obtain ⟨hread, hkept⟩ := load_reads hqueue.1 hcache hload
        have hmore : ∀ e ∈ loaded ++ [(key, document)], read t e.1 = .ok e.2 :=
          List.forall_mem_append.2 ⟨hloaded, List.forall_mem_singleton.2 hread⟩
        refine ih hkept hmore (fun k hk => ?_) h
        rcases mem_enqueue.1 hk with hk | ⟨hk, -⟩
        · exact hqueue.2 k hk
        · exact isNormal_of_mem_neighbours hk

/-- What is loaded with a cache that keeps what the files hold is what they hold. -/
theorem gather_reads {cache cache' : DocumentCache} {path target : String} {documents : Registry}
    (hcache : cache.ReadFrom t)
    (h : gather t cache path = (.ok (target, documents), cache')) :
    ∀ e ∈ documents, read t e.1 = .ok e.2 := by
  obtain ⟨-, hrun⟩ := gather_eq_ok.1 h
  exact gatherFrom_reads hcache (by simp) (List.forall_mem_singleton.2 (t.isNormal_absolute path))
    hrun

end Library

/-! ## Two registries -/

/-- The key of a loaded document is no web address. -/
theorem Library.Loading.isWeb_eq_false {t : FileTree} {known : List String}
    {cache documents : Registry} {queue : List String}
    (h : Loading t known cache documents queue) {key : String}
    (hkey : key ∈ documents.map Prod.fst) : Url.isWeb key = false :=
  Url.isWeb_of_isAbsolute (h.normal key (List.mem_append_left _ hkey)).isAbsolute

theorem Registry.mem_keys_of_document? {r : Registry} {key : String} (h : r.document? key ≠ none) :
    key ∈ r.map Prod.fst := by
  obtain ⟨value, hvalue⟩ := Option.ne_none_iff_exists'.1 h
  exact Keyed.mem_keys_of_get? (Library.document?_eq_some.1 hvalue).1

/-- What names a loaded document is no web address. -/
theorem Library.Loading.isWeb_of_documentKey {t : FileTree} {known : List String}
    {cache documents : Registry} {queue : List String}
    (h : Loading t known cache documents queue) {ctx : Context} {part found : String}
    (hfound : Reference.documentKey ctx part = .ok found) (hkey : found ∈ documents.map Prod.fst) :
    Url.isWeb part = false := by
  by_contra hweb
  rw [Bool.not_eq_false] at hweb
  have hne : part ≠ "" := by
    rintro rfl
    exact absurd hweb (by decide)
  rw [Reference.documentKey, if_neg hne, if_pos hweb] at hfound
  rw [Except.ok.inj hfound, h.isWeb_eq_false hkey] at hweb
  cases hweb

/-- The key of what a reference names depends on the document that is read alone. -/
theorem Reference.documentKey_congr {ctx ctx' : Context} (h : ctx.current = ctx'.current)
    (part : String) : documentKey ctx part = documentKey ctx' part := by
  unfold documentKey
  rw [h]

/-- Two registries of what the files hold have the same in the documents that both have. -/
theorem Registry.mirrors_of_read {t : FileTree} {known known' : List String}
    {cache cache' documents documents' : Registry}
    (h : Library.Loading t known cache documents [])
    (h' : Library.Loading t known' cache' documents' [])
    (hread : ∀ e ∈ documents, Library.read t e.1 = .ok e.2)
    (hread' : ∀ e ∈ documents', Library.read t e.1 = .ok e.2) :
    documents.Mirrors id
      (fun key => key ∈ documents.map Prod.fst ∧ key ∈ documents'.map Prod.fst) documents' where
  injective _ _ _ _ heq := heq
  document key hkey := by
    obtain ⟨⟨e, he, rfl⟩, ⟨e', he', hsame⟩⟩ := And.imp List.mem_map.1 List.mem_map.1 hkey
    rw [h.document?_eq he, id, ← hsame, h'.document?_eq he']
    have hvalue := hread' e' he'
    rw [hsame, hread e he] at hvalue
    rw [Except.ok.inj hvalue]
  reached key document hkey hdocument ref href ctx ctx' hctx hctx' found hfound hloaded := by
    have hmem := Registry.mem_keys_of_document? hloaded
    have hweb := h.isWeb_of_documentKey hfound hmem
    have hsame := Reference.documentKey_congr (hctx.trans hctx'.symm) (Pointer.split ref).1
    refine ⟨⟨hmem, ?_⟩, hsame.symm.trans hfound⟩
    obtain ⟨e', he', hsame'⟩ := List.mem_map.1 hkey.2
    have hread := hread _ hdocument
    have hother := hread' e' he'
    rw [hsame', hread] at hother
    obtain ⟨other, hmem', hkey'⟩ := h'.closed_registry.reached e' he' ref
      (Except.ok.inj hother ▸ href) hweb ctx' (hctx'.trans hsame'.symm)
    obtain rfl : found = other.1 := Except.ok.inj ((hfound.symm.trans hsame).trans hkey')
    exact List.mem_map.2 ⟨other, hmem', rfl⟩

/-- A context that starts among documents which another registry has too. -/
theorem Context.within_start {scope : String → Prop} {r : Registry} {key : String}
    (hclosed : r.Closed) (hscope : scope key) (hkey : key ∈ r.map Prod.fst) (overrides : Value) :
    (Context.start r key overrides).Within scope r (r.document key).refs :=
  ⟨rfl, hscope, hscope, by simp [start], hclosed.owns hkey overrides⟩

/-! ## Two runs -/

/-- The documents of a bundle are those that are loaded. -/
theorem Bundle.mem_keys_of_volume {config : Config} {target : String} {documents : Registry}
    {b : Bundle} (h : make config target documents = .ok b)
    (htarget : target ∈ documents.map Prod.fst) {v : Volume} (hv : v ∈ b.volumes) :
    v.document ∈ documents.map Prod.fst := by
  obtain ⟨own, others, -, -, -, -, hvolumes, hothers⟩ := make_ok h
  rw [hvolumes] at hv
  rcases List.mem_cons.1 hv with rfl | hv
  · exact htarget
  · obtain ⟨key, hkey, ds, -, rfl⟩ := exists_left_of_forall₂ hothers hv
    exact List.mem_mergeSort.1 (List.mem_filter.1 hkey).1

/-- The declarations of a document that two runs over the same files load are the same, in whatever
documents the runs start, if they have the same suffixes: names, models and imports. Only in the
document in which a run starts are those of its operations added. -/
theorem entry_points {t : FileTree} {config config' : Config} {b b' : Bundle}
    {cache cache' : DocumentCache} (h : Bundle.load t [] config = (.ok b, cache))
    (h' : Bundle.load t [] config' = (.ok b', cache'))
    (hoverrides : config.overrides = config'.overrides) {v v' : Volume} (hv : v ∈ b.volumes)
    (hv' : v' ∈ b'.volumes) (hsame : v.document = v'.document) :
    ∃ documents documents' own,
      (Library.gather t [] config.input).1 = .ok (b.target, documents) ∧
      (Library.gather t [] config'.input).1 = .ok (b'.target, documents') ∧
      (Definition.ofDocument (Bundle.contextOf config documents v.document)).outcome = .ok own ∧
      (Definition.ofDocument (Bundle.contextOf config' documents' v.document)).outcome = .ok own ∧
      v.declarations = firstOfName (·.name)
        (own ++ if v.document = b.target then b.operations.flatMap (·.declarations) else []) ∧
      v'.declarations = firstOfName (·.name)
        (own ++ if v.document = b'.target then b'.operations.flatMap (·.declarations) else []) := by
  obtain ⟨target, documents, hgather, hmake⟩ := Bundle.load_ok h
  obtain ⟨target', documents', hgather', hmake'⟩ := Bundle.load_ok h'
  obtain ⟨-, htarget, hloading⟩ := Library.gather_ok hgather
  obtain ⟨-, htarget', hloading'⟩ := Library.gather_ok hgather'
  have hempty : DocumentCache.ReadFrom t [] := fun key document hget => by
    cases hget
  have hmirrors := Registry.mirrors_of_read hloading hloading'
    (Library.gather_reads hempty hgather) (Library.gather_reads hempty hgather')
  obtain ⟨own, hown, hdeclarations⟩ := Bundle.volume_ok hmake hv
  obtain ⟨own', hown', hdeclarations'⟩ := Bundle.volume_ok hmake' hv'
  rw [← hsame] at hown' hdeclarations'
  have hkey := Bundle.mem_keys_of_volume hmake htarget hv
  have hkey' : v.document ∈ documents'.map Prod.fst :=
    hsame ▸ Bundle.mem_keys_of_volume hmake' htarget' hv'
  -- The second run reads what the first reads, under the same keys.
  have hwithin := @Context.within_start
    (fun key => key ∈ documents.map Prod.fst ∧ key ∈ documents'.map Prod.fst) documents v.document
    hloading.closed_registry ⟨hkey, hkey'⟩ hkey config.overrides
  have hmoved := Definition.ofDocument_moved hmirrors hwithin rfl own hown
  have hcontext : (Context.start documents v.document config.overrides).moved id documents' =
      Bundle.contextOf config' documents' v.document := by
    rw [Bundle.contextOf, ← hoverrides]
    rfl
  rw [hcontext, List.map_congr_left fun d _ => d.moved_id, List.map_id'] at hmoved
  obtain rfl : own = own' := Except.ok.inj (hmoved.symm.trans hown')
  obtain ⟨-, -, hfirst, -⟩ := Bundle.make_ok hmake
  obtain ⟨-, -, hsecond, -⟩ := Bundle.make_ok hmake'
  refine ⟨documents, documents', own, ?_, ?_, hown, hown', hdeclarations, hdeclarations'⟩
  · rw [hgather, hfirst]
  · rw [hgather', hsecond]

/-- Two files that refer to the same third one. -/
def kennels : FileTree :=
  let dogs := "\x7b\"$defs\":\x7b\"Dog\":\x7b\"$ref\":\"pets.json#/$defs/Pet\"\x7d\x7d\x7d"
  let cats := "\x7b\"$defs\":\x7b\"Cat\":\x7b\"$ref\":\"pets.json#/$defs/Pet\"\x7d\x7d\x7d"
  let pets := "\x7b\"$defs\":\x7b\"Pet\":\x7b\"items\":\x7b\"$ref\":\"#/$defs/Tag\"\x7d\x7d," ++
    "\"Tag\":\x7b\"type\":\"string\"\x7d\x7d\x7d"
  (((FileTree.empty []).addFile ["dogs.json".toList] (.text dogs)).addFile
    ["cats.json".toList] (.text cats)).addFile ["pets.json".toList] (.text pets)

def kennelConfig (input : String) : Config := ⟨input, "out", Config.defaultSuffixes, true⟩

theorem entry_points_kennels : ∃ b b' cache cache' v v' own,
    Bundle.load kennels [] (kennelConfig "dogs.json") = (.ok b, cache) ∧
    Bundle.load kennels [] (kennelConfig "cats.json") = (.ok b', cache') ∧
    (v ∈ b.volumes ∧ v.document = "/pets.json") ∧ (v' ∈ b'.volumes ∧ v'.document = "/pets.json") ∧
    v.declarations.map (·.name) = ["Pet", "Tag"] ∧
    v.declarations = firstOfName (·.name) own ∧ v'.declarations = firstOfName (·.name) own := by
  obtain ⟨b, cache, hload, hp⟩ := @Bundle.exists_load kennels (kennelConfig "dogs.json")
    "/dogs.json" ["/dogs.json", "/pets.json"]
    (fun b => decide (b.target = "/dogs.json" ∧ ∃ v ∈ b.volumes, v.document = "/pets.json" ∧
      v.declarations.map (·.name) = ["Pet", "Tag"]))
    (by decide +kernel) (by decide +kernel)
    (fun documents hdocuments hsorted => by
      unfold Bundle.make
      rw [hsorted, hdocuments]
      decide +kernel)
  obtain ⟨b', cache', hload', hp'⟩ := @Bundle.exists_load kennels (kennelConfig "cats.json")
    "/cats.json" ["/cats.json", "/pets.json"]
    (fun b => decide (b.target = "/cats.json" ∧ ∃ v ∈ b.volumes, v.document = "/pets.json"))
    (by decide +kernel) (by decide +kernel)
    (fun documents hdocuments hsorted => by
      unfold Bundle.make
      rw [hsorted, hdocuments]
      decide +kernel)
  obtain ⟨htarget, v, hv, hkey, hnames⟩ := of_decide_eq_true hp
  obtain ⟨htarget', v', hv', hkey'⟩ := of_decide_eq_true hp'
  obtain ⟨-, -, own, -, -, -, -, hown, hown'⟩ :=
    entry_points hload hload' rfl hv hv' (hkey.trans hkey'.symm)
  rw [if_neg (by rw [hkey, htarget]; decide), List.append_nil] at hown
  rw [if_neg (by rw [hkey, htarget']; decide), List.append_nil] at hown'
  exact ⟨b, b', cache, cache', v, v', own, hload, hload', ⟨hv, hkey⟩, ⟨hv', hkey'⟩, hnames, hown,
    hown'⟩

end ApiTypes

import ApiTypes.Proofs.EntryPoint
import ApiTypes.Proofs.Roots

/-!
# Reading and loading under another root

* `FileTree.IsRoot`, `FileTree.SameBelow` : two folders that hold the same;
* `Library.StaysInside`, `Library.NamesDocuments` : documents in a folder that refer to no file
  outside, and documents that have a name;
* `Library.read_rebased`, `Library.neighbours_rebased` : from the other folder the same is read, and
  it refers to the same;
* `Library.Loadings`, `Library.Relocates.step_rebased` : one more document is loaded under both;
* `Library.Relocates.gatherFrom_rebased`, `Library.Relocates.gather_rebased` : so the same documents
  are loaded, in the same order, under the keys that they have there.
-/

namespace ApiTypes

/-! ## Folders that hold the same -/

namespace FileTree

variable {t t' : FileTree}

/-- A path from the root that leads to a folder. -/
structure IsRoot (t : FileTree) (root : String) : Prop where
  isAbsolute : Path.isAbsolute root.toList = true
  noNul : hasNul root.toList = false
  walk : t.walk [] (Path.reduced root.toList) = .ok (Path.reduced root.toList)
  folder : t.entry? (Path.reduced root.toList) = some .folder

/-- Below two places there is the same. -/
def SameBelow (t t' : FileTree) (base base' : Place) : Prop :=
  ∀ p ≠ [], t.entry? (base ++ p) = t'.entry? (base' ++ p)

/-- After a way that leads to a folder, the rest of the way starts there. -/
theorem walk_append {here p q : Place} {ss : List (List Char)} (hss : Path.parent ∉ ss)
    (h : t.walk here ss = .ok p) (hfolder : t.entry? p = some .folder) (more : List (List Char)) :
    t.walk here (ss ++ more) = .ok q ↔ t.walk p more = .ok q := by
  induction ss generalizing here with
  | nil =>
    obtain rfl : here = p := by simpa [walk] using h
    rfl
  | cons s rest ih =>
    rw [List.mem_cons, not_or] at hss
    have hs := Ne.symm hss.1
    rw [List.cons_append, walk_cons_ok hs]
    obtain ⟨hlong, ⟨hnext, h⟩ | ⟨⟨c, hfile⟩, -, rfl⟩⟩ := (walk_cons_ok hs).1 h
    · simp [hlong, hnext, ih hss.2 h]
    · rw [hfile] at hfolder
      cases hfolder

/-- A way below the one place is one below the other. -/
theorem walk_rebased {base base' : Place} (h : t.SameBelow t' base base') {done p : Place}
    {ss : List (List Char)} (hss : Path.parent ∉ ss) (hwalk : t.walk (base ++ done) ss = .ok p) :
    t'.walk (base' ++ done) ss = .ok (base' ++ (done ++ ss)) := by
  induction ss generalizing done with
  | nil => rw [walk, List.append_nil]
  | cons s rest ih =>
    rw [List.mem_cons, not_or] at hss
    have hs := Ne.symm hss.1
    have hentry := h (done ++ [s]) (by simp)
    rw [walk_cons_ok hs, List.append_assoc] at hwalk ⊢
    rw [← hentry]
    obtain ⟨hlong, ⟨hnext, hrest⟩ | ⟨hfile, rfl, -⟩⟩ := hwalk
    · refine ⟨hlong, .inl ⟨hnext, ?_⟩⟩
      rw [ih hss.2 hrest, List.append_assoc, List.singleton_append]
    · exact ⟨hlong, .inr ⟨hfile, rfl, rfl⟩⟩

/-- The place of a file in a folder. -/
theorem walk_root {root p : String} (h : t.IsRoot root) (hp : Path.Inside p) {place : Place} :
    t.walk (t.startOf (Path.absolute root p).toList) (Path.segments (Path.absolute root p).toList) =
        .ok place ↔
      t.walk (Path.reduced root.toList) (Path.reduced p.toList) = .ok place := by
  have habsolute : Path.isAbsolute (Path.absolute root p).toList = true :=
    (Path.isNormal_absolute h.isAbsolute p).isAbsolute
  rw [startOf, if_pos habsolute, Path.segments_absolute h.isAbsolute hp]
  exact walk_append (Path.parent_not_mem_reduced h.isAbsolute) h.walk h.folder _

theorem IsRoot.hasNul_absolute {root p : String} (h : t.IsRoot root) (hp : Path.Inner p) :
    hasNul (Path.absolute root p).toList = hasNul p.toList := by
  have hlead : Char.ofNat 0 ∉ Path.lead root := by
    intro hmem
    have hroot := h.noNul
    rcases Path.mem_lead hmem with hslash | hmem
    · exact absurd hslash (by decide)
    · rw [hasNul, List.contains_iff_mem.2 hmem] at hroot
      cases hroot
  rw [hasNul, hasNul, Path.toList_absolute h.isAbsolute hp, Bool.eq_iff_iff, List.contains_iff_mem,
    List.contains_iff_mem, List.mem_append, or_iff_right hlead]

/-- A text in the one folder is in the other. -/
theorem readText_rebased {root root' p : String} (h : t.IsRoot root) (h' : t'.IsRoot root')
    (hsame : t.SameBelow t' (Path.reduced root.toList) (Path.reduced root'.toList))
    (hp : Path.Inner p) : Except.Carries id (t.readText (Path.absolute root p))
      (t'.readText (Path.absolute root' p)) := by
  intro text hread
  obtain ⟨hnul, place, s, hwalk, hentry, htext⟩ := readText_eq_ok.1 hread
  rw [walk_root h hp.inside] at hwalk
  obtain rfl := walk_ok hwalk hp.inside.stays
  refine readText_eq_ok.2 ⟨?_, Path.reduced root'.toList ++ Path.reduced p.toList, s,
    (walk_root h' hp.inside).2 ?_, ?_, htext⟩
  · rw [h.hasNul_absolute hp] at hnul
    rwa [h'.hasNul_absolute hp]
  · rw [← List.append_nil (Path.reduced root.toList)] at hwalk
    have hmoved := walk_rebased hsame hp.inside.stays hwalk
    rwa [List.append_nil, List.nil_append] at hmoved
  · rw [← hsame _ hp.ne, hentry]

end FileTree

/-! ## Documents in a folder -/

namespace Library

variable {t t' : FileTree} {root root' p : String}

/-- No document in a folder refers to a file outside. -/
def StaysInside (t : FileTree) (root : String) : Prop :=
  ∀ p document, Path.Inner p → read t (Path.absolute root p) = .ok document →
    ∀ ref ∈ document.refs, (Pointer.split ref).1 ≠ "" → Url.isWeb (Pointer.split ref).1 = false →
      Path.Inside (Path.join (Path.directory p) (Pointer.split ref).1)

/-- The path of every document in a folder has a name, also if each backslash counts as a slash. -/
def NamesDocuments (t : FileTree) (root : String) : Prop :=
  ∀ p document, Path.Inner p → read t (Path.absolute root p) = .ok document →
    Path.segments (Path.slashed p.toList) ≠ []

/-- What is under a root is read under another that holds the same. -/
theorem read_rebased (h : t.IsRoot root) (h' : t'.IsRoot root')
    (hsame : t.SameBelow t' (Path.reduced root.toList) (Path.reduced root'.toList))
    (hp : Path.Inner p) : Except.Carries id (read t (Path.absolute root p))
      (read t' (Path.absolute root' p)) := by
  have hyaml : isYaml (Path.absolute root p) = isYaml (Path.absolute root' p) := by
    rw [isYaml, isYaml, Path.suffix, Path.suffix, Path.name_absolute h.isAbsolute hp,
      Path.name_absolute h'.isAbsolute hp]
  have htext : Except.Carries id (textOf t (Path.absolute root p))
      (textOf t' (Path.absolute root' p)) := by
    intro text htext
    unfold textOf
    rw [if_neg (show ¬ Formats.hasHalf (Path.absolute root' p) = true from Bool.false_ne_true),
      FileTree.readText_rebased h h' hsame hp text (textOf_ok htext)]
  have hparse : ∀ text, Except.Carries id (parse (Path.absolute root p) text)
      (parse (Path.absolute root' p) text) := by
    intro text
    have hvalue : value (Path.absolute root p) text = value (Path.absolute root' p) text := by
      rw [value, value, hyaml]
    unfold parse
    rw [hvalue]
    cases value (Path.absolute root' p) text with
    | ok v => exact .ok v
    | error d => exact .error _ _
  unfold read
  dsimp only
  rw [(Path.isNormal_absolute h.isAbsolute p).tidy_eq,
    (Path.isNormal_absolute h'.isAbsolute p).tidy_eq]
  refine htext.bind fun text _ => (hparse text).bind fun value _ => ?_
  dsimp only [id]
  split
  · exact .refl _
  · exact .refl _
  · exact .error _ _

/-- What is read under a root is a file in the folder. -/
theorem file_of_read {document : Value} (h : t.IsRoot root) (hp : Path.Inside p)
    (hread : read t (Path.absolute root p) = .ok document) : ∃ s,
      t.entry? (Path.reduced root.toList ++ Path.reduced p.toList) = some (.file (.text s)) := by
  obtain ⟨text, htext⟩ := readText_of_read (Path.isNormal_absolute h.isAbsolute p) hread
  obtain ⟨-, place, s, hwalk, hentry, -⟩ := FileTree.readText_eq_ok.1 htext
  rw [FileTree.walk_root h hp] at hwalk
  obtain rfl := FileTree.walk_ok hwalk hp.stays
  exact ⟨s, hentry⟩

theorem exists_inner_of_read {document : Value} (h : t.IsRoot root) (hp : Path.Inside p)
    (hread : read t (Path.absolute root p) = .ok document) :
    ∃ q, Path.Inner q ∧ Path.absolute root q = Path.absolute root p := by
  have hne : Path.reduced p.toList ≠ [] := by
    intro hempty
    obtain ⟨s, hentry⟩ := file_of_read h hp hread
    rw [hempty, List.append_nil, h.folder] at hentry
    cases hentry
  have hinner := hp.inner hne
  exact ⟨Path.normalize p, hinner,
    (Path.absolute_inj h.isAbsolute hinner.inside hp).2 (Path.reduced_normalize p)⟩

/-! ## What documents refer to -/

/-- The keys of a folder and what is in it. -/
def Under (root key : String) : Prop := ∃ p, Path.Inside p ∧ Path.absolute root p = key

theorem rebase_injective (hroot : Path.isAbsolute root.toList = true)
    (hroot' : Path.isAbsolute root'.toList = true) {key other : String} (hkey : Under root key)
    (hother : Under root other) (heq : Path.rebase root root' key = Path.rebase root root' other) :
    key = other := by
  obtain ⟨p, hp, rfl⟩ := hkey
  obtain ⟨q, hq, rfl⟩ := hother
  rw [Path.rebase_absolute hroot hroot' hp, Path.rebase_absolute hroot hroot' hq] at heq
  exact (Path.absolute_inj hroot hp hq).2 ((Path.absolute_inj hroot' hp hq).1 heq)

/-- The document that a reference names is the same under every root. -/
theorem neighbour_absolute (hroot : Path.isAbsolute root.toList = true) (hp : Path.Inner p)
    {ref : String} (hinside : (Pointer.split ref).1 ≠ "" → Url.isWeb (Pointer.split ref).1 = false →
      Path.Inside (Path.join (Path.directory p) (Pointer.split ref).1)) :
    neighbour? t (Path.absolute root p) ref =
      if (Pointer.split ref).1 = "" ∨ Url.isWeb (Pointer.split ref).1 then none
      else some (Path.absolute root (Path.join (Path.directory p) (Pointer.split ref).1)) := by
  have habsolute := (Path.isNormal_absolute hroot p).isAbsolute
  unfold neighbour?
  dsimp only
  split_ifs with hlocal
  · rfl
  · rw [not_or, Bool.not_eq_true] at hlocal
    rw [FileTree.absolute, Path.absolute_of_isAbsolute
      (Path.isAbsolute_join_directory habsolute _), Path.absolute_join_directory hroot hp
      (hinside hlocal.1 hlocal.2)]

theorem neighbours_rebased (hroot : Path.isAbsolute root.toList = true)
    (hroot' : Path.isAbsolute root'.toList = true) (hp : Path.Inner p) {document : Value}
    (hinside : ∀ ref ∈ document.refs, (Pointer.split ref).1 ≠ "" →
      Url.isWeb (Pointer.split ref).1 = false →
        Path.Inside (Path.join (Path.directory p) (Pointer.split ref).1)) :
    neighbours t' (Path.absolute root' p) document =
        (neighbours t (Path.absolute root p) document).map (Path.rebase root root') ∧
      ∀ key ∈ neighbours t (Path.absolute root p) document, Under root key := by
  constructor
  · unfold neighbours
    rw [List.map_filterMap]
    refine List.filterMap_congr fun ref href => ?_
    rw [neighbour_absolute hroot hp (hinside ref href),
      neighbour_absolute hroot' hp (hinside ref href)]
    split_ifs with hlocal
    · rfl
    · rw [not_or, Bool.not_eq_true] at hlocal
      rw [Option.map_some, Path.rebase_absolute hroot hroot'
        (hinside ref href hlocal.1 hlocal.2)]
  · intro key hkey
    obtain ⟨ref, href, hkey⟩ := List.mem_filterMap.1 hkey
    rw [neighbour_absolute hroot hp (hinside ref href)] at hkey
    split_ifs at hkey with hlocal
    rw [not_or, Bool.not_eq_true] at hlocal
    exact ⟨_, hinside ref href hlocal.1 hlocal.2, Option.some.inj hkey⟩

/-- A queue is filled the same way with other keys. -/
theorem enqueue_map {move : String → String} {scope : String → Prop}
    (hinjective : ∀ key key', scope key → scope key' → move key = move key' → key = key')
    {done queue keys : List String} (hdone : ∀ key ∈ done, scope key)
    (hqueue : ∀ key ∈ queue, scope key) (hkeys : ∀ key ∈ keys, scope key) :
    enqueue (done.map move) (queue.map move) (keys.map move) =
      (enqueue done queue keys).map move := by
  induction keys generalizing queue with
  | nil => rfl
  | cons key rest ih =>
    rw [List.forall_mem_cons] at hkeys
    have hcontains : ∀ known : List String, (∀ k ∈ known, scope k) →
        (known.map move).contains (move key) = known.contains key := fun known hknown =>
      contains_map fun k hk heq => hinjective k key (hknown k hk) hkeys.1 heq
    rw [List.map_cons, enqueue, enqueue, hcontains done hdone, hcontains queue hqueue]
    split_ifs
    · exact ih hqueue hkeys.2
    · have hmore : ∀ k ∈ queue ++ [key], scope k :=
        List.forall_mem_append.2 ⟨hqueue, List.forall_mem_singleton.2 hkeys.1⟩
      rw [← ih hmore hkeys.2, List.map_append]
      rfl

/-- A document that is in a file is loaded, kept or not. -/
theorem load_of_read {cache : DocumentCache} {key : String} {document : Value}
    (hkey : Path.IsNormal key) (hcache : cache.ReadFrom t) (h : read t key = .ok document) :
    ∃ kept, DocumentCache.load cache t key = (.ok document, kept) := by
  have hsame : t.absolute key = key := Path.absolute_of_isNormal hkey _
  cases hkept : Registry.document? cache (t.absolute key) with
  | some found =>
    have hread := hcache (t.absolute key) found hkept
    rw [hsame, h] at hread
    exact ⟨cache, by rw [load_eq_of_kept hkept, Except.ok.inj hread]⟩
  | none => exact ⟨_, load_eq_of_read hkept (by rw [hsame, h])⟩

/-! ## Loading -/

/-- Two roots that hold the same, with no document that refers to a file outside. -/
structure Relocates (t t' : FileTree) (root root' : String) : Prop where
  here : t.IsRoot root
  there : t'.IsRoot root'
  same : t.SameBelow t' (Path.reduced root.toList) (Path.reduced root'.toList)
  stays : StaysInside t root

/-- A registry with its documents under the keys that they have under another root. -/
def rebased (root root' : String) (documents : Registry) : Registry :=
  documents.map (Prod.map (Path.rebase root root') id)

theorem keys_rebased (root root' : String) (documents : Registry) :
    (rebased root root' documents).map Prod.fst =
      (documents.map Prod.fst).map (Path.rebase root root') := by
  rw [rebased, List.map_map, List.map_map]
  rfl

theorem rebased_append (root root' : String) (loaded : Registry) (key : String) (document : Value) :
    rebased root root' (loaded ++ [(key, document)]) =
      rebased root root' loaded ++ [(Path.rebase root root' key, document)] := by
  rw [rebased, List.map_append]
  rfl

/-- What holds while the same documents are loaded under both roots. -/
structure Loadings (t t' : FileTree) (root root' : String) (known known' : List String)
    (cache cache' : DocumentCache) (loaded : Registry) (queue : List String) : Prop where
  here : Loading t known cache loaded queue
  there : Loading t' known' cache' (rebased root root' loaded) (queue.map (Path.rebase root root'))
  reads : cache.ReadFrom t
  reads' : cache'.ReadFrom t'
  loaded : ∀ key ∈ loaded.map Prod.fst, Under root key
  waiting : ∀ key ∈ queue, Under root key

namespace Relocates

variable {known known' : List String} {cache cache' : DocumentCache} {loaded : Registry}
  {queue : List String} (h : Relocates t t' root root')
include h

theorem symm : Relocates t' t root' root where
  here := h.there
  there := h.here
  same p hp := (h.same p hp).symm
  stays p document hp hread :=
    h.stays p document hp (read_rebased h.there h.here (fun q hq => (h.same q hq).symm) hp _ hread)

theorem rebase_absolute (hp : Path.Inside p) :
    Path.rebase root root' (Path.absolute root p) = Path.absolute root' p :=
  Path.rebase_absolute h.here.isAbsolute h.there.isAbsolute hp

/-- When one more document is loaded, the same waits under both roots. -/
theorem enqueue_rebased {document : Value} (hp : Path.Inner p)
    (hread : read t (Path.absolute root p) = .ok document)
    (hloaded : ∀ key ∈ loaded.map Prod.fst, Under root key) (hqueue : ∀ key ∈ queue, Under root key) :
    enqueue ((rebased root root' loaded).map Prod.fst) (queue.map (Path.rebase root root'))
        (neighbours t' (Path.absolute root' p) document) =
      (enqueue (loaded.map Prod.fst) queue (neighbours t (Path.absolute root p) document)).map
        (Path.rebase root root') ∧
    ∀ key ∈ enqueue (loaded.map Prod.fst) queue (neighbours t (Path.absolute root p) document),
      Under root key := by
  obtain ⟨hneighbours, hunder⟩ := @neighbours_rebased t t' root root' p h.here.isAbsolute
    h.there.isAbsolute hp document (h.stays p document hp hread)
  constructor
  · rw [hneighbours, keys_rebased]
    exact enqueue_map (fun _ _ => rebase_injective h.here.isAbsolute h.there.isAbsolute) hloaded
      hqueue hunder
  · intro key hkey
    rcases mem_enqueue.1 hkey with hkey | ⟨hkey, -⟩
    · exact hqueue key hkey
    · exact hunder key hkey

/-- One more document is loaded under both roots. -/
theorem step_rebased (hfiles : t.keys ⊆ known) (hfiles' : t'.keys ⊆ known') {key : String}
    {document : Value} {kept : DocumentCache}
    (hpair : Loadings t t' root root' known known' cache cache' loaded (key :: queue))
    (hload : DocumentCache.load cache t key = (.ok document, kept)) :
    ∃ kept', DocumentCache.load cache' t' (Path.rebase root root' key) = (.ok document, kept') ∧
      enqueue ((rebased root root' (loaded ++ [(key, document)])).map Prod.fst)
          (queue.map (Path.rebase root root'))
          (neighbours t' (Path.rebase root root' key) document) =
        (enqueue ((loaded ++ [(key, document)]).map Prod.fst) queue
          (neighbours t key document)).map (Path.rebase root root') ∧
      Loadings t t' root root' known known' kept kept' (loaded ++ [(key, document)])
        (enqueue ((loaded ++ [(key, document)]).map Prod.fst) queue (neighbours t key document)) := by
  have hnormal := hpair.here.normal key (List.mem_append_right _ (List.mem_cons_self ..))
  obtain ⟨hread, hkept⟩ := load_reads hnormal hpair.reads hload
  obtain ⟨hkey, hqueue⟩ := List.forall_mem_cons.1 hpair.waiting
  obtain ⟨p, hp, rfl⟩ : ∃ p, Path.Inner p ∧ Path.absolute root p = key := by
    obtain ⟨p, hp, rfl⟩ := hkey
    exact exists_inner_of_read h.here hp hread
  have hthere := hpair.there
  have hnormal' := Path.isNormal_absolute h.there.isAbsolute p
  rw [List.map_cons, h.rebase_absolute hp.inside] at hthere
  rw [h.rebase_absolute hp.inside]
  -- the document is in the file under the other root, and refers to the same
  have hread' : read t' (Path.absolute root' p) = .ok document :=
    read_rebased h.here h.there h.same hp _ hread
  obtain ⟨kept', hload'⟩ := load_of_read hnormal' hpair.reads' hread'
  have hmore : ∀ key ∈ (loaded ++ [(Path.absolute root p, document)]).map Prod.fst,
      Under root key := by
    rw [List.map_append]
    exact List.forall_mem_append.2 ⟨hpair.loaded, List.forall_mem_singleton.2 hkey⟩
  obtain ⟨hnext, hunder⟩ := h.enqueue_rebased hp hread hmore hqueue
  refine ⟨kept', hload', hnext, hpair.here.step hfiles hload, ?_, hkept,
    (load_reads hnormal' hpair.reads' hload').2, hmore, hunder⟩
  rw [← hnext, rebased_append, h.rebase_absolute hp.inside]
  exact hthere.step hfiles' hload'

/-- From both roots the same documents are loaded, if there are steps enough for both. -/
theorem gatherFrom_rebased (hfiles : t.keys ⊆ known) (hfiles' : t'.keys ⊆ known')
    {fuel fuel' : Nat} {final : DocumentCache} {result : Registry}
    (hpair : Loadings t t' root root' known known' cache cache' loaded queue)
    (hfuel : known.length < fuel + loaded.length) (hfuel' : known'.length < fuel' + loaded.length)
    (hrun : gatherFrom t fuel cache loaded queue = (.ok result, final)) :
    (∃ final', gatherFrom t' fuel' cache' (rebased root root' loaded)
        (queue.map (Path.rebase root root')) = (.ok (rebased root root' result), final')) ∧
      ∀ key ∈ result.map Prod.fst, Under root key := by
  induction fuel generalizing fuel' cache cache' loaded queue with
  | zero =>
    have hle := hpair.here.length_le
    omega
  | succ fuel ih =>
    cases queue with
    | nil =>
      rw [gatherFrom] at hrun
      · obtain ⟨rfl, -⟩ : loaded = result ∧ cache = final := by simpa using hrun
        refine ⟨⟨cache', ?_⟩, hpair.loaded⟩
        cases fuel' with
        | zero => rfl
        | succ fuel' => rw [List.map_nil, gatherFrom]; simp
      · simp
    | cons key queue =>
      rw [gatherFrom] at hrun
      split at hrun
      · simp at hrun
      · rename_i document kept hload
        obtain ⟨kept', hload', hnext, hpair'⟩ := h.step_rebased hfiles hfiles' hpair hload
        have hlength : (loaded ++ [(key, document)]).length = loaded.length + 1 :=
          List.length_append
        cases fuel' with
        | zero =>
          have hle := hpair.there.length_le
          rw [rebased, List.length_map] at hle
          omega
        | succ fuel' =>
          rw [List.map_cons, gatherFrom, hload']
          dsimp only
          rw [← rebased_append, hnext]
          exact ih hpair' (by omega) (by omega) hrun

theorem gather_rebased {entry target : String} {documents : Registry} {cache : DocumentCache}
    (hentry : Path.Inside entry)
    (hgather : gather t [] (Path.below root entry) = (.ok (target, documents), cache)) :
    target = Path.absolute root entry ∧ (∀ key ∈ documents.map Prod.fst, Under root key) ∧
      ∃ cache', gather t' [] (Path.below root' entry) =
        (.ok (Path.absolute root' entry, rebased root root' documents), cache') := by
  have hstart : t.absolute (Path.below root entry) = Path.absolute root entry :=
    Path.absolute_below h.here.isAbsolute _ _
  have hstart' : t'.absolute (Path.below root' entry) = Path.absolute root' entry :=
    Path.absolute_below h.there.isAbsolute _ _
  have hkept : ∀ u, DocumentCache.ReadFrom u [] := fun _ _ _ hget => by cases hget
  obtain ⟨rfl, hrun⟩ := gather_eq_ok.1 hgather
  have hwaits := Loading.gather t [] (Path.below root entry)
  have hwaits' := Loading.gather t' [] (Path.below root' entry)
  rw [hstart] at hrun hwaits ⊢
  rw [hstart', ← h.rebase_absolute hentry] at hwaits'
  have hpair : Loadings t t' root root' _ _ [] [] [] [Path.absolute root entry] :=
    ⟨hwaits, hwaits', hkept t, hkept t', by simp, List.forall_mem_singleton.2 ⟨entry, hentry, rfl⟩⟩
  obtain ⟨⟨final, hfinal⟩, hunder⟩ := h.gatherFrom_rebased (List.subset_append_left _ _)
    (List.subset_append_left _ _) hpair (length_known_lt t []) (length_known_lt t' []) hrun
  rw [List.map_singleton, h.rebase_absolute hentry] at hfinal
  refine ⟨rfl, hunder, final, gather_eq_ok.2 ⟨hstart', ?_⟩⟩
  rw [hstart']
  exact hfinal

end Relocates
end Library
end ApiTypes

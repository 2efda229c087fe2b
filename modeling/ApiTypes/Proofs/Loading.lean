import ApiTypes.Command
import ApiTypes.Proofs.Outcome
import ApiTypes.Proofs.Paths
import Mathlib.Data.List.Nodup

/-!
# What is loaded

* `FileTree.keys` : the keys that the files of a tree can have;
* `Library.read_ok` : what is read is under one of these keys, and is a mapping;
* `Library.load_cases`, `Library.load_error` : what one load does to the cache;
* `Library.Loading` : what holds while documents are loaded; `Loading.step` : one more document;
* `Library.gatherFrom_ok`, `Library.gather_ok` : in the end every document that a loaded one refers
  to is loaded. The steps are enough since each loads another key.
-/

namespace ApiTypes

/-! ## Files -/

namespace FileTree

variable {t : FileTree}

/-- The keys that files can have: a place has one path with one slash at the start and one with
two. -/
def keys (t : FileTree) : List String :=
  t.entries.map (fun e => String.ofList ('/' :: Path.glue e.1)) ++
    t.entries.map fun e => String.ofList ('/' :: '/' :: Path.glue e.1)

theorem length_keys (t : FileTree) : t.keys.length = 2 * t.entries.length := by
  rw [keys, List.length_append, List.length_map, List.length_map]
  omega

theorem isAbsolute_workingFolder (t : FileTree) :
    Path.isAbsolute t.workingFolder.path.toList = true := by
  rw [Place.path, String.toList_ofList]
  rfl

theorem isNormal_absolute (t : FileTree) (path : String) : Path.IsNormal (t.absolute path) :=
  Path.isNormal_absolute t.isAbsolute_workingFolder path

/-- One step of a way: to a folder, from which the way goes on, or at its end to a file. -/
theorem walk_cons_ok {here p : Place} {s : List Char} {rest : List (List Char)}
    (hs : s ≠ Path.parent) : t.walk here (s :: rest) = .ok p ↔ isTooLong s = false ∧
      (t.entry? (here ++ [s]) = some .folder ∧ t.walk (here ++ [s]) rest = .ok p ∨
        (∃ c, t.entry? (here ++ [s]) = some (.file c)) ∧ rest = [] ∧ here ++ [s] = p) := by
  rw [walk, if_neg hs]
  cases hlong : isTooLong s with
  | true => simp
  | false =>
    dsimp only
    rw [if_neg (by simp)]
    split
    · rename_i hnext
      simp [hnext]
    · rename_i hnext
      by_cases hrest : rest = []
      · simp [hnext, hrest]
      · simp [hnext, hrest]
    · rename_i hnext
      simp [hnext]

/-- A way without `..` leads to the place that it names. -/
theorem walk_ok {here p : Place} {ss : List (List Char)} (h : t.walk here ss = .ok p)
    (hss : Path.parent ∉ ss) : p = here ++ ss := by
  induction ss generalizing here with
  | nil =>
    obtain rfl : here = p := by simpa [walk] using h
    rw [List.append_nil]
  | cons s rest ih =>
    rw [List.mem_cons, not_or] at hss
    rcases (walk_cons_ok (Ne.symm hss.1)).1 h with ⟨-, ⟨-, h⟩ | ⟨-, rfl, rfl⟩⟩
    · rw [ih h hss.2, List.append_assoc, List.singleton_append]
    · rfl

theorem readText_eq_ok {path text : String} : t.readText path = .ok text ↔
    hasNul path.toList = false ∧ ∃ p s,
      t.walk (t.startOf path.toList) (Path.segments path.toList) = .ok p ∧
      t.entry? p = some (.file (.text s)) ∧ String.ofList (plainLines s.toList) = text := by
  unfold readText
  dsimp only
  cases hasNul path.toList with
  | true =>
    refine ⟨fun h => ?_, fun h => by cases h.1⟩
    rw [if_pos rfl] at h
    cases h
  | false =>
    rw [if_neg (by simp), Except.bind_eq_ok]
    constructor
    · rintro ⟨p, hp, h⟩
      split at h
      · rename_i s hentry
        exact ⟨rfl, p, s, hp, hentry, Except.ok.inj h⟩
      all_goals cases h
    · rintro ⟨-, p, s, hp, hentry, rfl⟩
      exact ⟨p, hp, by rw [hentry]; rfl⟩

/-- What is read under a key is one of the files. -/
theorem mem_keys_of_readText {key text : String} (hkey : Path.IsNormal key)
    (h : t.readText key = .ok text) : key ∈ t.keys := by
  obtain ⟨-, p, s, hp, hentry, -⟩ := readText_eq_ok.1 h
  rw [startOf, if_pos hkey.isAbsolute] at hp
  obtain rfl := walk_ok hp hkey.parent_not_mem
  rw [List.nil_append] at hentry
  have hplace : Path.segments key.toList ∈ t.entries.map Prod.fst := by
    unfold entry? at hentry
    split_ifs at hentry
    · simp at hentry
    · exact Keyed.mem_keys_of_get? hentry
  obtain ⟨e, he, hsegments⟩ := List.mem_map.1 hplace
  have htext : key = String.ofList (Path.root key.toList ++ Path.glue e.1) := by
    rw [hsegments, ← hkey.toList_eq, String.ofList_toList]
  rcases Path.root_cases key.toList with hroot | hroot | hroot
  · exact absurd hroot (Path.isAbsolute_iff_root.1 hkey.isAbsolute)
  · rw [htext, hroot]
    exact List.mem_append_left _ (List.mem_map.2 ⟨e, he, rfl⟩)
  · rw [htext, hroot]
    exact List.mem_append_right _ (List.mem_map.2 ⟨e, he, rfl⟩)

end FileTree

namespace Library

variable {t : FileTree}

section Read

variable [Formats]

theorem textOf_ok {path text : String} (h : textOf t path = .ok text) :
    t.readText path = .ok text := by
  unfold textOf at h
  split_ifs at h
  split at h
  · rename_i hread
    exact hread.trans (congrArg Except.ok (Except.ok.inj h))
  all_goals cases h

theorem readText_of_read {key : String} {document : Value} (hkey : Path.IsNormal key)
    (h : read t key = .ok document) : ∃ text, t.readText key = .ok text := by
  unfold read at h
  dsimp only at h
  rw [hkey.tidy_eq] at h
  obtain ⟨text, htext, -⟩ := Except.bind_eq_ok.1 h
  exact ⟨text, textOf_ok htext⟩

theorem read_ok {key : String} {document : Value} (hkey : Path.IsNormal key)
    (h : read t key = .ok document) : key ∈ t.keys ∧ ∃ ms, document = .map ms := by
  obtain ⟨text, htext⟩ := readText_of_read hkey h
  refine ⟨FileTree.mem_keys_of_readText hkey htext, ?_⟩
  unfold read at h
  dsimp only at h
  obtain ⟨_, -, h⟩ := Except.bind_eq_ok.1 h
  obtain ⟨value, -, h⟩ := Except.bind_eq_ok.1 h
  split at h
  · exact ⟨[], (Except.ok.inj h).symm⟩
  · exact ⟨_, (Except.ok.inj h).symm⟩
  · cases h

end Read

/-! ## The queue -/

theorem mem_enqueue {done queue keys : List String} {key : String} :
    key ∈ enqueue done queue keys ↔ key ∈ queue ∨ key ∈ keys ∧ key ∉ done := by
  induction keys generalizing queue with
  | nil => simp [enqueue]
  | cons k rest ih =>
    rw [enqueue]
    split_ifs with hknown
    · rw [Bool.or_eq_true, List.contains_iff_mem, List.contains_iff_mem] at hknown
      rw [ih, List.mem_cons]
      constructor
      · rintro (hq | ⟨hr, hd⟩)
        · exact .inl hq
        · exact .inr ⟨.inr hr, hd⟩
      · rintro (hq | ⟨rfl | hr, hd⟩)
        · exact .inl hq
        · exact .inl (hknown.resolve_left hd)
        · exact .inr ⟨hr, hd⟩
    · rw [Bool.or_eq_true, List.contains_iff_mem, List.contains_iff_mem, not_or] at hknown
      rw [ih, List.mem_append, List.mem_singleton, List.mem_cons]
      constructor
      · rintro ((hq | rfl) | ⟨hr, hd⟩)
        · exact .inl hq
        · exact .inr ⟨.inl rfl, hknown.1⟩
        · exact .inr ⟨.inr hr, hd⟩
      · rintro (hq | ⟨rfl | hr, hd⟩)
        · exact .inl (.inl hq)
        · exact .inl (.inr rfl)
        · exact .inr ⟨hr, hd⟩

theorem nodup_enqueue {done queue : List String} (h : (done ++ queue).Nodup) (keys : List String) :
    (done ++ enqueue done queue keys).Nodup := by
  induction keys generalizing queue with
  | nil => exact h
  | cons k rest ih =>
    rw [enqueue]
    split_ifs with hknown
    · exact ih h
    · rw [Bool.or_eq_true, List.contains_iff_mem, List.contains_iff_mem] at hknown
      refine ih ?_
      rw [← List.append_assoc]
      refine List.nodup_append'.2 ⟨h, List.nodup_singleton _, ?_⟩
      rw [List.disjoint_singleton, List.mem_append]
      exact hknown

theorem isNormal_of_mem_neighbours {key k : String} {document : Value}
    (h : k ∈ neighbours t key document) : Path.IsNormal k := by
  obtain ⟨ref, -, href⟩ := List.mem_filterMap.1 h
  unfold neighbour? at href
  dsimp only at href
  split_ifs at href
  rw [← Option.some.inj href]
  exact t.isNormal_absolute _

/-! ## Loading -/

/-- What holds while documents are loaded, of which all keys are known: a key is loaded once, and
what a loaded document refers to is loaded or waits. -/
structure Loading (t : FileTree) (known : List String) (cache loaded : Registry)
    (queue : List String) : Prop where
  nodup : (loaded.map Prod.fst ++ queue).Nodup
  normal : ∀ key ∈ loaded.map Prod.fst ++ queue, Path.IsNormal key
  kept : ∀ key document, Registry.document? cache key = some document → key ∈ known
  known : ∀ e ∈ loaded, e.1 ∈ known
  notNull : ∀ e ∈ loaded, e.2 ≠ .null
  closed : ∀ e ∈ loaded, ∀ key ∈ neighbours t e.1 e.2, key ∈ loaded.map Prod.fst ++ queue

theorem document?_eq_some {documents : Registry} {key : String} {document : Value} :
    documents.document? key = some document ↔
      Keyed.get? documents key = some document ∧ document ≠ .null := by
  unfold Registry.document?
  rw [Option.filter_eq_some_iff]
  refine and_congr_right fun _ => ?_
  cases document with
  | atom a => cases a <;> simp
  | list items => simp
  | map ms => simp

/-- What is kept once a document is put. -/
theorem document?_put_cases {cache : DocumentCache} {key k : String} {document kept : Value}
    (h : Registry.document? (cache.put key document) k = some kept) :
    k = key ∧ kept = document ∨ Registry.document? cache k = some kept := by
  obtain ⟨hget, hne⟩ := document?_eq_some.1 h
  rw [DocumentCache.put, Keyed.get?_put] at hget
  split_ifs at hget with heq
  · exact .inl ⟨heq.symm, (Option.some.inj hget).symm⟩
  · exact .inr (document?_eq_some.2 ⟨hget, hne⟩)

section Load

variable [Formats] {cache cache' : DocumentCache} {path : String} {document : Value} {f : Fault}

theorem load_eq_of_kept (h : Registry.document? cache (t.absolute path) = some document) :
    cache.load t path = (.ok document, cache) := by
  unfold DocumentCache.load
  dsimp only
  rw [h]

theorem load_eq_of_read (h : Registry.document? cache (t.absolute path) = none)
    (hread : read t (t.absolute path) = .ok document) :
    cache.load t path = (.ok document, cache.put (t.absolute path) document) := by
  unfold DocumentCache.load
  dsimp only
  rw [h, hread]
  rfl

theorem load_eq_of_error (h : Registry.document? cache (t.absolute path) = none)
    (hread : read t (t.absolute path) = .error f) : cache.load t path = (.error f, cache) := by
  unfold DocumentCache.load
  dsimp only
  rw [h, hread]

/-- A document that is loaded was kept, or is read and then kept. -/
theorem load_cases (h : cache.load t path = (.ok document, cache')) :
    Registry.document? cache (t.absolute path) = some document ∧ cache = cache' ∨
      Registry.document? cache (t.absolute path) = none ∧
        read t (t.absolute path) = .ok document ∧
        cache.put (t.absolute path) document = cache' := by
  cases hkept : Registry.document? cache (t.absolute path) with
  | some kept =>
    rw [load_eq_of_kept hkept] at h
    obtain ⟨rfl, rfl⟩ : kept = document ∧ cache = cache' := by simpa using h
    exact .inl ⟨rfl, rfl⟩
  | none =>
    cases hread : read t (t.absolute path) with
    | ok found =>
      rw [load_eq_of_read hkept hread] at h
      obtain ⟨rfl, rfl⟩ : found = document ∧ cache.put (t.absolute path) found = cache' := by
        simpa using h
      exact .inr ⟨rfl, rfl, rfl⟩
    | error f =>
      rw [load_eq_of_error hkept hread] at h
      cases h

/-- A load that fails leaves the cache as it is. -/
theorem load_error (h : cache.load t path = (.error f, cache')) :
    Registry.document? cache (t.absolute path) = none ∧ read t (t.absolute path) = .error f ∧
      cache = cache' := by
  cases hkept : Registry.document? cache (t.absolute path) with
  | some kept =>
    rw [load_eq_of_kept hkept] at h
    cases h
  | none =>
    cases hread : read t (t.absolute path) with
    | ok found =>
      rw [load_eq_of_read hkept hread] at h
      cases h
    | error g =>
      rw [load_eq_of_error hkept hread] at h
      obtain ⟨rfl, rfl⟩ : g = f ∧ cache = cache' := by simpa using h
      exact ⟨rfl, rfl, rfl⟩

/-- A document that is loaded is known, and kept. -/
theorem load_ok {key : String} (hkey : Path.IsNormal key)
    (h : DocumentCache.load cache t key = (.ok document, cache')) :
    document ≠ .null ∧ (key ∈ t.keys ∨ ∃ kept, Registry.document? cache key = some kept) ∧
      ∀ k kept, Registry.document? cache' k = some kept →
        (∃ before, Registry.document? cache k = some before) ∨ k = key := by
  have hsame : t.absolute key = key := Path.absolute_of_isNormal hkey _
  rcases load_cases h with ⟨hkept, rfl⟩ | ⟨-, hread, rfl⟩
  · rw [hsame] at hkept
    exact ⟨(document?_eq_some.1 hkept).2, .inr ⟨_, hkept⟩, fun k other hk => .inl ⟨other, hk⟩⟩
  · rw [hsame] at hread ⊢
    obtain ⟨hfile, ms, rfl⟩ := read_ok hkey hread
    refine ⟨by simp, .inl hfile, fun k kept hk => ?_⟩
    rcases document?_put_cases hk with ⟨heq, -⟩ | hbefore
    · exact .inr heq
    · exact .inl ⟨kept, hbefore⟩

end Load

theorem get?_of_nodup {documents : Registry} (h : (documents.map Prod.fst).Nodup)
    {e : String × Value} (he : e ∈ documents) : Keyed.get? documents e.1 = some e.2 := by
  induction documents with
  | nil => cases he
  | cons first rest ih =>
    obtain ⟨key, document⟩ := first
    rw [List.map_cons, List.nodup_cons] at h
    rcases List.mem_cons.1 he with rfl | he
    · rw [Keyed.get?, if_pos rfl]
    · have hne : key ≠ e.1 := fun heq => h.1 (heq ▸ List.mem_map.2 ⟨e, he, rfl⟩)
      rw [Keyed.get?, if_neg hne, ih h.2 he]

namespace Loading

variable {known : List String} {cache loaded : Registry} {queue : List String}

/-- Before anything is loaded, the first key waits. -/
theorem start {key : String} (hkey : Path.IsNormal key)
    (hkept : ∀ k document, Registry.document? cache k = some document → k ∈ known) :
    Loading t known cache [] [key] where
  nodup := List.nodup_singleton key
  normal k hk := List.mem_singleton.1 hk ▸ hkey
  kept := hkept
  known := by simp
  notNull := by simp
  closed := by simp

/-- One more document is loaded: the next that waits. What it refers to waits from now on, unless it
is loaded. -/
theorem step [Formats] {cache' : DocumentCache} {key : String} {document : Value}
    (h : Loading t known cache loaded (key :: queue)) (hfiles : t.keys ⊆ known)
    (hload : DocumentCache.load cache t key = (.ok document, cache')) :
    Loading t known cache' (loaded ++ [(key, document)])
      (enqueue ((loaded ++ [(key, document)]).map Prod.fst) queue (neighbours t key document)) := by
  have hkey := h.normal key (List.mem_append_right _ (List.mem_cons_self ..))
  obtain ⟨hne, hfound, hcache⟩ := load_ok hkey hload
  have hknown : key ∈ known := by
    rcases hfound with hfile | ⟨kept, hkept⟩
    · exact hfiles hfile
    · exact h.kept key kept hkept
  have hkeys : (loaded ++ [(key, document)]).map Prod.fst = loaded.map Prod.fst ++ [key] := by
    rw [List.map_append]
    rfl
  have hnodup : (loaded.map Prod.fst ++ [key] ++ queue).Nodup := by
    rw [List.append_assoc, List.singleton_append]
    exact h.nodup
  constructor
  case nodup =>
    rw [hkeys]
    exact nodup_enqueue hnodup _
  case normal =>
    intro k hk
    rw [hkeys, List.mem_append, List.mem_append, mem_enqueue, List.mem_singleton] at hk
    rcases hk with (hk | rfl) | hk | ⟨hk, -⟩
    · exact h.normal k (List.mem_append_left _ hk)
    · exact hkey
    · exact h.normal k (List.mem_append_right _ (List.mem_cons_of_mem _ hk))
    · exact isNormal_of_mem_neighbours hk
  case kept =>
    intro k kept hk
    rcases hcache k kept hk with ⟨before, hbefore⟩ | rfl
    · exact h.kept k before hbefore
    · exact hknown
  case known => exact List.forall_mem_append.2 ⟨h.known, List.forall_mem_singleton.2 hknown⟩
  case notNull => exact List.forall_mem_append.2 ⟨h.notNull, List.forall_mem_singleton.2 hne⟩
  case closed =>
    intro e he k hk
    rw [hkeys, List.mem_append (s := loaded.map Prod.fst ++ [key]), mem_enqueue]
    by_cases hdone : k ∈ loaded.map Prod.fst ++ [key]
    · exact .inl hdone
    refine .inr ?_
    rcases List.mem_append.1 he with he | he
    · have hmem : k ∈ loaded.map Prod.fst ++ [key] ++ queue := by
        rw [List.append_assoc, List.singleton_append]
        exact h.closed e he k hk
      exact .inl ((List.mem_append.1 hmem).resolve_left hdone)
    · obtain rfl := List.mem_singleton.1 he
      exact .inr ⟨hk, hdone⟩

/-- There are no more loaded documents than known keys. -/
theorem length_le (h : Loading t known cache loaded queue) : loaded.length ≤ known.length := by
  have hnodup : (loaded.map Prod.fst).Nodup := (List.nodup_append'.1 h.nodup).1
  have hsubset : loaded.map Prod.fst ⊆ known := by
    intro k hk
    obtain ⟨e, he, rfl⟩ := List.mem_map.1 hk
    exact h.known e he
  simpa using hnodup.length_le_of_subset hsubset

/-- Each loaded document is found under its key. -/
theorem document?_eq (h : Loading t known cache loaded queue) {e : String × Value}
    (he : e ∈ loaded) : Registry.document? loaded e.1 = some e.2 :=
  document?_eq_some.2
    ⟨get?_of_nodup (List.nodup_append'.1 h.nodup).1 he, h.notNull e he⟩

end Loading

/-- With more steps than there are keys left, all that waits is loaded in the end. -/
theorem gatherFrom_ok [Formats] {known : List String} (hfiles : t.keys ⊆ known) {fuel : Nat}
    {cache cache' : DocumentCache} {loaded result : Registry} {queue : List String}
    (h : Loading t known cache loaded queue) (hfuel : known.length < fuel + loaded.length)
    (hrun : gatherFrom t fuel cache loaded queue = (.ok result, cache')) :
    Loading t known cache' result [] ∧
      loaded.map Prod.fst ++ queue ⊆ result.map Prod.fst := by
  induction fuel generalizing cache loaded queue with
  | zero =>
    have hle := h.length_le
    omega
  | succ fuel ih =>
    cases queue with
    | nil =>
      rw [gatherFrom] at hrun
      · obtain ⟨rfl, rfl⟩ : loaded = result ∧ cache = cache' := by simpa using hrun
        exact ⟨h, by simp⟩
      · simp
    | cons key queue =>
      rw [gatherFrom] at hrun
      split at hrun
      · simp at hrun
      · rename_i document kept hload
        have hnext := h.step hfiles hload
        obtain ⟨hdone, hsubset⟩ := ih hnext (by rw [List.length_append, List.length_singleton]; omega)
          hrun
        refine ⟨hdone, fun k hk => hsubset ?_⟩
        rw [List.mem_append, mem_enqueue, List.map_append, List.mem_append]
        rcases List.mem_append.1 hk with hk | hk
        · exact .inl (.inl hk)
        · rcases List.mem_cons.1 hk with rfl | hk
          · exact .inl (.inr (List.mem_singleton_self _))
          · exact .inr (.inl hk)

/-- What is gathered is what waits after the first document, loaded. -/
theorem gather_eq_ok [Formats] {cache cache' : DocumentCache} {path target : String}
    {documents : Registry} :
    gather t cache path = (.ok (target, documents), cache') ↔ t.absolute path = target ∧
      gatherFrom t (2 * t.entries.length + cache.length + 2) cache [] [t.absolute path] =
        (.ok documents, cache') := by
  unfold gather
  dsimp only
  generalize gatherFrom t _ cache [] [t.absolute path] = run
  obtain ⟨loaded, kept⟩ := run
  cases loaded with
  | error f => simp [Except.map]
  | ok registry => simp [Except.map, and_assoc]

variable (t) in
theorem Loading.gather (cache : DocumentCache) (path : String) :
    Loading t (t.keys ++ cache.map Prod.fst) cache [] [t.absolute path] :=
  .start (t.isNormal_absolute path) fun _ _ hk => List.mem_append_right _
    (Keyed.mem_keys_of_get? (document?_eq_some.1 hk).1)

variable (t) in
theorem length_known_lt (cache : DocumentCache) : (t.keys ++ cache.map Prod.fst).length <
    2 * t.entries.length + cache.length + 2 + List.length ([] : Registry) := by
  rw [List.length_append, FileTree.length_keys, List.length_map, List.length_nil]
  omega

/-- The documents that are gathered, under different keys, include the first one and all that they
refer to. -/
theorem gather_ok [Formats] {cache cache' : DocumentCache} {path target : String}
    {documents : Registry} (h : gather t cache path = (.ok (target, documents), cache')) :
    target = t.absolute path ∧ target ∈ documents.map Prod.fst ∧
      Loading t (t.keys ++ cache.map Prod.fst) cache' documents [] := by
  obtain ⟨rfl, hrun⟩ := gather_eq_ok.1 h
  obtain ⟨hdone, hsubset⟩ := gatherFrom_ok (List.subset_append_left _ _) (.gather t cache path)
    (length_known_lt t cache) hrun
  exact ⟨rfl, hsubset (List.mem_append_right _ (List.mem_singleton_self _)), hdone⟩

end Library

/-! ## Bundles of what is loaded -/

namespace Bundle

variable {t : FileTree} {cache cache' : DocumentCache}

theorem load_eq (config : Config) {target : String} {documents : Registry}
    (h : Library.gather t cache config.input = (.ok (target, documents), cache')) :
    load t cache config = (make config target documents, cache') := by
  unfold load
  rw [h]
  rfl

theorem load_ok {config : Config} {b : Bundle}
    (h : load t cache config = (.ok b, cache')) :
    ∃ target documents, Library.gather t cache config.input = (.ok (target, documents), cache') ∧
      make config target documents = .ok b := by
  unfold load at h
  generalize Library.gather t cache config.input = run at h
  obtain ⟨gathered, kept⟩ := run
  obtain ⟨hmake, rfl⟩ := Prod.mk.inj h
  obtain ⟨⟨target, documents⟩, rfl, hmake⟩ := Except.bind_eq_ok.1 hmake
  exact ⟨target, documents, rfl, hmake⟩

/-- A run over files whose documents are loaded in the order of their keys: a bundle that passes a
test which runs. -/
theorem exists_load {config : Config} {target : String} {keys : List String} {p : Bundle → Bool}
    (hgather : (Library.gather t [] config.input).1.toOption.any
      (fun r => decide (r.1 = target ∧ r.2.map Prod.fst = keys)) = true)
    (hordered : keys.Pairwise fun a b => decide (a ≤ b) = true)
    (hmake : ∀ documents, documents =
        ((Library.gather t [] config.input).1.toOption.map Prod.snd).getD [] →
      keysOf documents = keys → (make config target documents).toOption.any p = true) :
    ∃ b cache, load t [] config = (.ok b, cache) ∧ p b = true := by
  obtain ⟨⟨found, documents⟩, hrun, htest⟩ := Except.exists_of_any hgather
  obtain ⟨rfl, hkeys⟩ : found = target ∧ documents.map Prod.fst = keys := of_decide_eq_true htest
  have hsorted : keysOf documents = keys := by
    rw [keysOf, hkeys]
    exact List.mergeSort_of_pairwise hordered
  obtain ⟨b, hb, hp⟩ := Except.exists_of_any (hmake documents (by rw [hrun]; rfl) hsorted)
  generalize hgathered : Library.gather t [] config.input = run at hrun
  obtain ⟨gathered, kept⟩ := run
  obtain rfl : gathered = .ok (found, documents) := hrun
  exact ⟨b, kept, by rw [load_eq config hgathered, hb], hp⟩

end Bundle
end ApiTypes

import ApiTypes.Proofs.EntryPoint
import Mathlib.Logic.Relation

/-!
# What a document leads to

* `Library.Reaches` : the files that a document leads to, through the documents in others;
* `Library.reached` : these files in the order of a search that goes one reference further in all
  directions before it goes on;
* `Library.Searching` : what holds while documents are loaded; `Searching.step` : one more document;
* `Library.gatherFrom_searches` : the search ends with all of them, or at the first that is none;
* `Library.NoDocument`, `Library.Breaks` : what is wrong with a file that holds no document;
* `closure_loaded` : what is loaded is what the first document leads to;
* `closure_loaded_broken` : a file that holds no document, and is not reported as such.
-/

namespace ApiTypes

namespace Library

/-- What waits comes before what is new, each where it first comes. -/
theorem enqueue_eq (done queue keys : List String) : enqueue done queue keys =
    queue ++ (keys.filter (· ∉ done ++ queue)).eraseDups := by
  induction keys generalizing queue with
  | nil => exact (List.append_nil queue).symm
  | cons k rest ih =>
    rw [enqueue, List.filter_cons, ← List.contains_append]
    by_cases hknown : k ∈ done ++ queue
    · rw [if_pos (List.contains_iff_mem.2 hknown),
        if_neg (mt of_decide_eq_true (not_not_intro hknown)), ih]
    · have hnew : (rest.filter (· ∉ done ++ queue)).filter (fun k' => !k' == k) =
          rest.filter (· ∉ done ++ (queue ++ [k])) := by
        rw [List.filter_filter]
        refine List.filter_congr fun k' _ => ?_
        rw [Bool.eq_iff_iff]
        simp only [List.mem_append, List.mem_singleton]
        grind
      rw [if_neg (mt List.contains_iff_mem.1 hknown), if_pos (decide_eq_true hknown), ih,
        List.eraseDups_cons, hnew, List.append_assoc, List.singleton_append]

variable [Formats] {t : FileTree} {first key : String} {keys more : List String}

/-! ## Reaching files -/

/-- The files that the document in a file refers to, if there is one. -/
def referred (t : FileTree) (key : String) : List String :=
  match read t key with
  | .ok document => neighbours t key document
  | .error _ => []

/-- The files that a document leads to: itself, and what is referred to by one of them. -/
def Reaches (t : FileTree) (first : String) : String → Prop :=
  Relation.ReflTransGen (fun key next => next ∈ referred t key) first

/-- The first file and what the documents in some files refer to, each where it first comes. -/
def ahead (t : FileTree) (first : String) (keys : List String) : List String :=
  (first :: keys.flatMap (referred t)).eraseDups

/-- The files that fewer than a number of references lead to: the first one, then what its document
refers to, then what the documents in those refer to, and so on. -/
def reached (t : FileTree) (first : String) : Nat → List String
  | 0 => []
  | n + 1 => ahead t first (reached t first n)

theorem mem_ahead : key ∈ ahead t first keys ↔ key = first ∨ ∃ k ∈ keys, key ∈ referred t k := by
  rw [ahead, List.mem_eraseDups, List.mem_cons, List.mem_flatMap]

/-- What further documents refer to comes after what is there, without what is there. -/
theorem ahead_append : ahead t first (keys ++ more) = ahead t first keys ++
    ((more.flatMap (referred t)).filter (· ∉ ahead t first keys)).eraseDups := by
  have hrest : (more.flatMap (referred t)).filter (· ∉ ahead t first keys) =
      (more.flatMap (referred t)).removeAll (first :: keys.flatMap (referred t)) := by
    unfold List.removeAll ahead
    refine List.filter_congr fun k _ => ?_
    rw [Bool.eq_iff_iff]
    simp
  rw [hrest, ahead, List.flatMap_append, ← List.cons_append, List.eraseDups_append]
  rfl

theorem ahead_mono (h : keys <+: more) : ahead t first keys <+: ahead t first more := by
  obtain ⟨rest, rfl⟩ := h
  rw [ahead_append]
  exact List.prefix_append _ _

/-- What needs more references comes later. -/
theorem reached_mono {m n : Nat} (h : m ≤ n) : reached t first m <+: reached t first n := by
  have hsucc : ∀ n, reached t first n <+: reached t first (n + 1) := by
    intro n
    induction n with
    | zero => exact List.nil_prefix
    | succ n ih => exact ahead_mono ih
  induction n, h using Nat.le_induction with
  | base => exact List.prefix_refl _
  | succ n _ ih => exact ih.trans (hsucc n)

theorem reaches_of_mem_reached {n : Nat} (h : key ∈ reached t first n) : Reaches t first key := by
  induction n generalizing key with
  | zero => cases h
  | succ n ih =>
    rcases mem_ahead.1 h with rfl | ⟨k, hk, hkey⟩
    · exact .refl
    · exact (ih hk).tail hkey

theorem exists_mem_reached (h : Reaches t first key) : ∃ n, key ∈ reached t first n := by
  induction h with
  | refl => exact ⟨1, mem_ahead.2 (.inl rfl)⟩
  | tail _ hnext ih =>
    obtain ⟨n, hn⟩ := ih
    exact ⟨n + 1, mem_ahead.2 (.inr ⟨_, hn, hnext⟩)⟩

/-! ## The search -/

/-- What holds while documents are loaded: they are read from the files, they and the files that
wait are what is ahead of them, and a further search goes on from them. -/
structure Searching (t : FileTree) (first : String) (loaded : Registry) (queue : List String) :
    Prop where
  reads : ∀ e ∈ loaded, read t e.1 = .ok e.2
  ahead : loaded.map Prod.fst ++ queue = ahead t first (loaded.map Prod.fst)
  within : ∃ n, loaded.map Prod.fst <+: reached t first n

namespace Searching

variable {loaded : Registry} {queue : List String}

theorem start (t : FileTree) (first : String) : Searching t first [] [first] where
  reads := by simp
  ahead := rfl
  within := ⟨0, List.nil_prefix⟩

/-- The next file that waits is the next that is reached. -/
theorem next_reached (h : Searching t first loaded (key :: queue)) :
    ∃ n, loaded.map Prod.fst ++ [key] <+: reached t first n := by
  obtain ⟨n, hn⟩ := h.within
  refine ⟨n + 1, List.IsPrefix.trans ?_ (ahead_mono hn)⟩
  rw [← h.ahead]
  exact ⟨queue, by rw [List.append_assoc, List.singleton_append]⟩

/-- One more document is loaded: the next that waits. -/
theorem step {document : Value} (h : Searching t first loaded (key :: queue))
    (hread : read t key = .ok document) :
    Searching t first (loaded ++ [(key, document)])
      (enqueue ((loaded ++ [(key, document)]).map Prod.fst) queue (neighbours t key document)) := by
  have hkeys : (loaded ++ [(key, document)]).map Prod.fst = loaded.map Prod.fst ++ [key] := by
    rw [List.map_append]
    rfl
  have hreferred : [key].flatMap (referred t) = neighbours t key document := by
    rw [List.flatMap_singleton, referred, hread]
  constructor
  case reads => exact List.forall_mem_append.2 ⟨h.reads, List.forall_mem_singleton.2 hread⟩
  case ahead =>
    have hahead : loaded.map Prod.fst ++ [key] ++ queue = Library.ahead t first
        (loaded.map Prod.fst) := by
      rw [List.append_assoc, List.singleton_append, h.ahead]
    rw [hkeys, enqueue_eq, ahead_append, hreferred, ← List.append_assoc, hahead]
  case within =>
    rw [hkeys]
    exact h.next_reached

/-- When no file waits, all that is reached is loaded. -/
theorem keys_eq (h : Searching t first loaded []) :
    ∃ n, ∀ m, n ≤ m → loaded.map Prod.fst = reached t first m := by
  have hahead := h.ahead
  rw [List.append_nil] at hahead
  have hall : ∀ m, reached t first m <+: loaded.map Prod.fst := by
    intro m
    induction m with
    | zero => exact List.nil_prefix
    | succ m ih =>
      rw [hahead]
      exact ahead_mono ih
  obtain ⟨n, hn⟩ := h.within
  refine ⟨n, fun m hm => ?_⟩
  have hle := (hn.trans (reached_mono hm)).length_le
  exact ((hall m).eq_of_length_le hle).symm

theorem mem_iff (h : Searching t first loaded []) :
    key ∈ loaded.map Prod.fst ↔ Reaches t first key := by
  obtain ⟨n, hn⟩ := h.keys_eq
  constructor
  · intro hkey
    rw [hn n (Nat.le_refl n)] at hkey
    exact reaches_of_mem_reached hkey
  · intro hkey
    obtain ⟨m, hm⟩ := exists_mem_reached hkey
    rw [hn _ (Nat.le_max_left n m)]
    exact (reached_mono (Nat.le_max_right n m)).subset hm

end Searching

/-- What is loaded with a cache of what the files hold is what the file holds. -/
theorem load_fst {cache : DocumentCache} (hkey : Path.IsNormal key) (hcache : cache.ReadFrom t) :
    (DocumentCache.load cache t key).1 = read t key := by
  have hsame : t.absolute key = key := Path.absolute_of_isNormal hkey _
  cases hload : cache.load t key with
  | mk answer next =>
    cases answer with
    | ok document => exact (load_reads hkey hcache hload).1.symm
    | error f =>
      have hread := (load_error hload).2.1
      rw [hsame] at hread
      exact hread.symm

/-- The search ends: with all that is reached if these are documents, else at the first that is
none. The steps are enough since each loads another of the known files. -/
theorem gatherFrom_searches {known : List String} (hfiles : t.keys ⊆ known) {fuel : Nat}
    {cache : DocumentCache} {loaded : Registry} {queue : List String}
    (hloading : Loading t known cache loaded queue) (hcache : cache.ReadFrom t)
    (hsearching : Searching t first loaded queue) (hfuel : known.length < fuel + loaded.length) :
    (∃ result cache', gatherFrom t fuel cache loaded queue = (.ok result, cache') ∧
      Searching t first result []) ∨
    ∃ f cache', gatherFrom t fuel cache loaded queue = (.error f, cache') ∧
      ∃ before key n, before ++ [key] <+: reached t first n ∧
        (∀ k ∈ before, ∃ document, read t k = .ok document) ∧ read t key = .error f := by
  induction fuel generalizing cache loaded queue with
  | zero =>
    have hle := hloading.length_le
    omega
  | succ fuel ih =>
    cases queue with
    | nil => exact .inl ⟨loaded, cache, by rw [gatherFrom]; simp, hsearching⟩
    | cons key queue =>
      have hkey := hloading.normal key (List.mem_append_right _ (List.mem_cons_self ..))
      have hfst := load_fst hkey hcache
      rw [gatherFrom]
      cases hload : DocumentCache.load cache t key with
      | mk outcome cache' =>
        rw [hload] at hfst
        cases outcome with
        | error f =>
          obtain ⟨n, hn⟩ := hsearching.next_reached
          refine .inr ⟨f, cache', rfl, loaded.map Prod.fst, key, n, hn, fun k hk => ?_, hfst.symm⟩
          obtain ⟨e, he, rfl⟩ := List.mem_map.1 hk
          exact ⟨e.2, hsearching.reads e he⟩
        | ok document =>
          have hread : read t key = .ok document := hfst.symm
          apply ih (hloading.step hfiles hload) (load_reads hkey hcache hload).2
            (hsearching.step hread)
          rw [List.length_append, List.length_singleton]
          omega

/-- More steps than there are known files left change nothing. -/
theorem gatherFrom_add {known : List String} (hfiles : t.keys ⊆ known) {fuel : Nat}
    {cache : DocumentCache} {loaded : Registry} {queue : List String}
    (hloading : Loading t known cache loaded queue) (hfuel : known.length < fuel + loaded.length)
    (extra : Nat) :
    gatherFrom t (fuel + extra) cache loaded queue = gatherFrom t fuel cache loaded queue := by
  induction fuel generalizing cache loaded queue with
  | zero =>
    have hle := hloading.length_le
    omega
  | succ fuel ih =>
    rw [Nat.add_right_comm]
    cases queue with
    | nil => rw [gatherFrom, gatherFrom] <;> simp
    | cons key queue =>
      rw [gatherFrom, gatherFrom]
      cases hload : DocumentCache.load cache t key with
      | mk outcome cache' =>
        cases outcome with
        | error f => rfl
        | ok document =>
          apply ih (hloading.step hfiles hload)
          rw [List.length_append, List.length_singleton]
          omega

theorem gather_error {cache cache' : DocumentCache} {path : String} {f : Fault}
    (h : gatherFrom t (2 * t.entries.length + cache.length + 2) cache [] [t.absolute path] =
      (.error f, cache')) : gather t cache path = (.error f, cache') := by
  unfold gather
  dsimp only
  rw [h]
  rfl

/-! ## Files that hold no document -/

/-- A file cannot be read, its text is none of its format, or it holds no mapping. -/
inductive NoDocument (key : String) : Fault → Prop
  | unreadable : NoDocument key (.unreadable key)
  | unparsable : NoDocument key (.unparsable key)
  | rootNotMapping : NoDocument key (.rootNotMapping key)

/-- What breaks the reading of a file off: a path or octets that are no text, and all that the
reader of its format does not report as a text of another format. -/
inductive Breaks (t : FileTree) (key : String) : Fault → Prop
  | half (h : Formats.hasHalf key = true) : Breaks t key (.defect .halfInPath)
  | nul (h : t.readText key = .error .nulInPath) : Breaks t key (.defect .nulInPath)
  | octets (h : t.readText key = .error .notUtf8) : Breaks t key (.defect .notUtf8)
  | reader {text : String} {d : Defect} (htext : t.readText key = .ok text)
      (h : value key text = .error (some d)) : Breaks t key (.defect d)

theorem textOf_error {f : Fault} (h : textOf t key = .error f) :
    NoDocument key f ∨ Breaks t key f := by
  unfold textOf at h
  split_ifs at h with hhalf
  · obtain rfl := Except.error.inj h
    exact .inr (.half hhalf)
  cases hread : t.readText key with
  | ok text => rw [hread] at h; cases h
  | error failure =>
    rw [hread] at h
    cases failure with
    | missing => obtain rfl := Except.error.inj h; exact .inl .unreadable
    | isFolder => obtain rfl := Except.error.inj h; exact .inl .unreadable
    | nameTooLong => obtain rfl := Except.error.inj h; exact .inl .unreadable
    | nulInPath => obtain rfl := Except.error.inj h; exact .inr (.nul hread)
    | notUtf8 => obtain rfl := Except.error.inj h; exact .inr (.octets hread)

theorem parse_error {text : String} {f : Fault} (htext : t.readText key = .ok text)
    (h : parse key text = .error f) : NoDocument key f ∨ Breaks t key f := by
  unfold parse at h
  cases hvalue : value key text with
  | ok v => rw [hvalue] at h; cases h
  | error reason =>
    rw [hvalue] at h
    obtain rfl := Except.error.inj h
    cases reason with
    | none => exact .inl .unparsable
    | some d => exact .inr (.reader htext hvalue)

/-- What is wrong with a file that holds no document. -/
theorem read_error {f : Fault} (hkey : Path.IsNormal key) (h : read t key = .error f) :
    NoDocument key f ∨ Breaks t key f := by
  unfold read at h
  dsimp only at h
  rw [hkey.tidy_eq] at h
  cases htext : textOf t key with
  | error g =>
    rw [htext] at h
    obtain rfl : g = f := Except.error.inj h
    exact textOf_error htext
  | ok text =>
    rw [htext] at h
    dsimp only [bind, Except.bind] at h
    cases hparse : parse key text with
    | error g =>
      rw [hparse] at h
      obtain rfl : g = f := Except.error.inj h
      exact parse_error (textOf_ok htext) hparse
    | ok v =>
      rw [hparse] at h
      dsimp only at h
      split at h
      · cases h
      · cases h
      · obtain rfl := Except.error.inj h
        exact .inl .rootNotMapping

theorem isNormal_of_reaches (hfirst : Path.IsNormal first) (h : Reaches t first key) :
    Path.IsNormal key := by
  cases h with
  | refl => exact hfirst
  | @tail k _ _ hnext =>
    unfold referred at hnext
    split at hnext
    · exact isNormal_of_mem_neighbours hnext
    · cases hnext

end Library

/-- Loading a document ends, and more steps than it is given change nothing. If all files that the
document leads to hold documents, then these are what is loaded: each of them once, read from its
file, and in the order in which a search in all directions reaches them. Otherwise loading fails
with what is wrong with the first of the files, in this order, that holds none. All of this holds
whatever the readers of the two formats make of a text. -/
theorem closure_loaded [Library.Formats] (t : FileTree) (path : String) :
    (∀ steps, 2 * t.entries.length + 2 ≤ steps →
      Library.gatherFrom t steps [] [] [t.absolute path] =
        Library.gatherFrom t (2 * t.entries.length + 2) [] [] [t.absolute path]) ∧
    ((∀ key, Library.Reaches t (t.absolute path) key →
        ∃ document, Library.read t key = .ok document) →
      ∃ documents cache,
        Library.gather t [] path = (.ok (t.absolute path, documents), cache) ∧
        (documents.map Prod.fst).Nodup ∧
        (∀ key, key ∈ documents.map Prod.fst ↔ Library.Reaches t (t.absolute path) key) ∧
        (∀ e ∈ documents, Library.read t e.1 = .ok e.2) ∧
        ∃ n, ∀ m, n ≤ m → documents.map Prod.fst = Library.reached t (t.absolute path) m) ∧
    ((∃ key, Library.Reaches t (t.absolute path) key ∧
        ∀ document, Library.read t key ≠ .ok document) →
      ∃ f cache, Library.gather t [] path = (.error f, cache) ∧
        ∃ before key n, before ++ [key] <+: Library.reached t (t.absolute path) n ∧
          (∀ k ∈ before, ∃ document, Library.read t k = .ok document) ∧
          Library.read t key = .error f ∧
          (Library.NoDocument key f ∨ Library.Breaks t key f)) := by
  have hfiles : t.keys ⊆ t.keys ++ List.map Prod.fst ([] : DocumentCache) :=
    List.subset_append_left _ _
  have hloading := Library.Loading.gather t [] path
  have hlength := Library.length_known_lt t []
  have hcache : DocumentCache.ReadFrom t [] := fun _ _ h => by cases h
  have hrun := Library.gatherFrom_searches hfiles hloading hcache (.start t _) hlength
  refine ⟨fun steps hsteps => ?_, fun hall => ?_, ?_⟩
  · obtain ⟨extra, rfl⟩ := Nat.exists_eq_add_of_le hsteps
    exact Library.gatherFrom_add hfiles hloading hlength extra
  · rcases hrun with ⟨documents, cache, hok, hsearching⟩ |
      ⟨f, cache, -, before, key, n, hn, -, hread⟩
    · have hgather := Library.gather_eq_ok.2 ⟨rfl, hok⟩
      have hnodup := (Library.gather_ok hgather).2.2.nodup
      rw [List.append_nil] at hnodup
      exact ⟨documents, cache, hgather, hnodup, fun key => hsearching.mem_iff, hsearching.reads,
        hsearching.keys_eq⟩
    · have hkey : key ∈ Library.reached t (t.absolute path) n :=
        hn.subset (List.mem_append_right _ (List.mem_singleton_self _))
      obtain ⟨document, hdocument⟩ := hall key (Library.reaches_of_mem_reached hkey)
      rw [hread] at hdocument
      cases hdocument
  · rintro ⟨key, hkey, hnone⟩
    rcases hrun with ⟨documents, cache, -, hsearching⟩ |
      ⟨f, cache, herror, before, key, n, hn, hbefore, hread⟩
    · obtain ⟨e, he, rfl⟩ := List.mem_map.1 (hsearching.mem_iff.2 hkey)
      exact absurd (hsearching.reads e he) (hnone e.2)
    · have hreached : key ∈ Library.reached t (t.absolute path) n :=
        hn.subset (List.mem_append_right _ (List.mem_singleton_self _))
      have hnormal := Library.isNormal_of_reaches (t.isNormal_absolute path)
        (Library.reaches_of_mem_reached hreached)
      exact ⟨f, cache, Library.gather_error herror, before, key, n, hn, hbefore, hread,
        Library.read_error hnormal hread⟩

/-- A file whose text has a number without digits. -/
def emptyNumberTree : FileTree :=
  (FileTree.empty []).addFile ["api.yaml".toList] (.text "a: !!int ''")

/-- The file is read, and its text is none of its format, but loading does not fail with that. -/
theorem closure_loaded_broken :
    emptyNumberTree.readText "/api.yaml" = .ok "a: !!int ''" ∧
      Yaml.read "a: !!int ''".toList = .error .emptyNumeral ∧
      ∃ f, (Library.gather emptyNumberTree [] "/api.yaml").1 = .error f ∧
        ¬ Library.NoDocument "/api.yaml" f := by
  refine ⟨by decide +kernel, Except.eq_error_of_map (by decide +kernel), .defect .emptyNumeral,
    Except.eq_error_of_map (by decide +kernel), ?_⟩
  intro h
  cases h

end ApiTypes

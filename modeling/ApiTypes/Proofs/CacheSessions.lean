import ApiTypes.Proofs.Closure
import Mathlib.Data.List.DropRight

/-!
# The cache over many uses

* `DocumentCache.Event` : what happens to a cache; `DocumentCache.since` : the events since the last
  that drops the document of a key; `DocumentCache.kept` : the document that is kept after events;
* `Library.found` : what is found under a key: what is kept, else what the file holds;
* `DocumentCache.Stores` : documents are kept and all other entries are left as they are;
* `Library.Loads` : such documents that are found; `loads_of_load` : one document; `Loads.append` :
  further ones;
* `Library.gatherEvents` : the loads while documents are gathered; `Library.Gathers` : the answer,
  the cache and the loads, up to the first that fails; `gatherFrom_gathers` : this is what happens;
* `DocumentCache.Use`, `Session` : uses of a cache and changes of the files, one after another;
* `Session.Remembers` : what is kept, and what a load finds and stores, in terms of the past;
* `Session.Faithful` : the cache holds what is kept after the past; `Faithful.after` : one more use;
  `Faithful.remembers` : all else follows;
* `cached_documents` : every session remembers.
-/

namespace ApiTypes

/-! ## What is kept -/

namespace DocumentCache

/-- What happens to a cache. -/
inductive Event where
  | put (key : String) (document : Value)
  /-- The document of a key is dropped, or all documents. -/
  | invalidate (key : Option String)
  /-- A key is loaded, with this answer. -/
  | load (key : String) (answer : Except Fault Value)

namespace Event

/-- Whether no document of a key is kept from before. To put `null`, which is none, drops it too. -/
def drops (key : String) : Event → Bool
  | .put k document => k = key && (document matches .atom .null)
  | .invalidate k => k.all (· = key)
  | .load _ _ => false

def put? (key : String) : Event → Option Value
  | .put k document => if k = key then some document else none
  | .invalidate _ | .load _ _ => none

/-- The document of a key that is loaded, unless this fails. -/
def loaded? (key : String) : Event → Option Value
  | .load k (.ok document) => if k = key then some document else none
  | .load _ (.error _) | .put _ _ | .invalidate _ => none

end Event

/-- The events since the last that drops the document of a key. -/
def since (past : List Event) (key : String) : List Event := past.rtakeWhile (!·.drops key)

/-- The document of a key that is kept: the one that was put last, or else the one that was loaded
first, since the last was dropped. -/
def kept (past : List Event) (key : String) : Option Value :=
  ((since past key).reverse.findSome? (·.put? key)).or ((since past key).findSome? (·.loaded? key))

theorem kept_concat (past : List Event) (e : Event) (key : String) : kept (past ++ [e]) key =
    if e.drops key then none else (e.put? key).or ((kept past key).or (e.loaded? key)) := by
  unfold kept since
  rw [List.rtakeWhile_concat]
  cases e.drops key with
  | true => rfl
  | false =>
    rw [if_pos Bool.not_false, if_neg Bool.false_ne_true, List.reverse_append,
      List.findSome?_append, List.findSome?_append, Option.or_assoc, Option.or_assoc]
    simp only [List.reverse_singleton, List.findSome?_singleton]

/-- The loads of some documents, one after another. -/
def loadsOf (documents : Registry) : List Event := documents.map fun e => .load e.1 (.ok e.2)

/-- Documents are kept, and the entries of all other keys are left as they are. -/
structure Stores (cache : DocumentCache) (documents : Registry) (after : DocumentCache) : Prop where
  stored : ∀ e ∈ documents, Registry.document? after e.1 = some e.2
  others : ∀ key ∉ documents.map Prod.fst, Keyed.get? after key = Keyed.get? cache key

end DocumentCache

/-! ## What is loaded -/

namespace Registry

variable {r : Registry} {key k : String} {document : Value}

theorem document?_cons (hne : document ≠ .null) : document? ((k, document) :: r) key =
    if k = key then some document else document? r key := by
  split_ifs with hk
  · exact Library.document?_eq_some.2 ⟨by rw [Keyed.get?, if_pos hk], hne⟩
  · rw [document?, Keyed.get?, if_neg hk]
    rfl

theorem document?_put (r : Registry) (k : String) (document : Value) (key : String) :
    document? (Keyed.put r k document) key =
      if k = key then document? [(k, document)] k else document? r key := by
  unfold document?
  rw [Keyed.get?_put, Keyed.get?, if_pos rfl]
  split_ifs <;> rfl

theorem document?_remove (r : Registry) (k key : String) :
    document? (Keyed.remove r k) key = if k = key then none else document? r key := by
  unfold document?
  split_ifs with hk
  · rw [hk, Keyed.get?_remove_self]
    rfl
  · rw [Keyed.get?_remove_of_ne hk]

theorem document?_eq_none (h : key ∉ r.map Prod.fst) : document? r key = none :=
  of_not_not (mt mem_keys_of_document? h)

end Registry

/-! ## What one event changes -/

namespace DocumentCache

theorem kept_put (past : List Event) (k : String) (document : Value) (key : String) :
    kept (past ++ [.put k document]) key =
      if k = key then Registry.document? [(k, document)] k else kept past key := by
  rw [kept_concat, Event.loaded?, Option.or_none]
  by_cases hk : k = key
  · subst hk
    by_cases hnull : document = .null
    · subst hnull
      simp [Event.drops, Registry.document?, Keyed.get?, Option.filter_some]
    · rw [Registry.document?_cons hnull]
      simp [Event.drops, Event.put?]
  · simp [Event.drops, Event.put?, hk]

theorem kept_invalidate (past : List Event) (k : Option String) (key : String) :
    kept (past ++ [.invalidate k]) key = if k.all (· = key) then none else kept past key := by
  rw [kept_concat, Event.put?, Event.loaded?, Option.or_none, Option.none_or]
  rfl

theorem kept_load (past : List Event) (k : String) (answer : Except Fault Value) (key : String) :
    kept (past ++ [.load k answer]) key =
      (kept past key).or ((Event.load k answer).loaded? key) := by
  rw [kept_concat, Event.put?, Option.none_or]
  rfl

/-- Documents that are loaded after some events are kept where none was kept before. -/
theorem kept_append_loadsOf {documents : Registry} (hne : ∀ e ∈ documents, e.2 ≠ .null)
    (past : List Event) (key : String) : kept (past ++ loadsOf documents) key =
      (kept past key).or (Registry.document? documents key) := by
  induction documents generalizing past with
  | nil =>
    rw [loadsOf, List.map_nil, List.append_nil]
    exact Option.or_none.symm
  | cons e rest ih =>
    obtain ⟨hfirst, hrest⟩ := List.forall_mem_cons.1 hne
    rw [loadsOf, List.map_cons, List.append_cons, ← loadsOf, ih hrest, kept_load, Option.or_assoc,
      Registry.document?_cons hfirst, Event.loaded?]
    split_ifs <;> rfl

end DocumentCache

namespace Library

/-- What is found under a key: what is kept, else what the file holds. -/
def found (t : FileTree) (kept : Option Value) (key : String) : Except Fault Value :=
  match kept with
  | some document => .ok document
  | none => read t key

/-- A cache before and after documents are loaded, each of them kept before or in its file. -/
structure Loads (t : FileTree) (cache : DocumentCache) (documents : Registry)
    (after : DocumentCache) : Prop extends cache.Stores documents after where
  found : ∀ e ∈ documents, found t (Registry.document? cache e.1) e.1 = .ok e.2

variable {t : FileTree} {cache next after : DocumentCache} {documents more : Registry}
  {key path : String} {document : Value} {f : Fault}

namespace Loads

theorem nil (t : FileTree) (cache : DocumentCache) : Loads t cache [] cache where
  stored := by simp
  others := fun _ _ => rfl
  found := by simp

theorem ne_null (h : Loads t cache documents after) {e : String × Value} (he : e ∈ documents) :
    e.2 ≠ .null :=
  (document?_eq_some.1 (h.stored e he)).2

/-- What is kept afterwards: what was kept before, and what is loaded. -/
theorem document?_eq (h : Loads t cache documents after) (key : String) :
    Registry.document? after key =
      (Registry.document? cache key).or (Registry.document? documents key) := by
  by_cases hkey : key ∈ documents.map Prod.fst
  · obtain ⟨document, hget⟩ := Keyed.exists_get? hkey
    have he := Keyed.mem_of_get? hget
    have hloaded := document?_eq_some.2 ⟨hget, h.ne_null he⟩
    have hfound := h.found _ he
    rw [h.stored _ he, hloaded]
    cases hcache : Registry.document? cache key with
    | none => rfl
    | some kept =>
      rw [hcache] at hfound
      rw [Except.ok.inj hfound]
      rfl
  · rw [Registry.document?_eq_none hkey, Option.or_none, Registry.document?, Registry.document?,
      h.others key hkey]

/-- What is found after documents are loaded was found before. -/
theorem found_eq (h : Loads t cache documents after) (key : String) :
    Library.found t (Registry.document? after key) key =
      Library.found t (Registry.document? cache key) key := by
  rw [h.document?_eq]
  cases hcache : Registry.document? cache key with
  | some kept => rfl
  | none =>
    rw [Option.none_or]
    cases hloaded : Registry.document? documents key with
    | none => rfl
    | some document =>
      have hfound := h.found _ (Keyed.mem_of_get? (document?_eq_some.1 hloaded).1)
      rw [hcache] at hfound
      exact hfound.symm

/-- Further documents are loaded. -/
theorem append (h : Loads t cache documents next) (hmore : Loads t next more after) :
    Loads t cache (documents ++ more) after where
  stored := by
    refine List.forall_mem_append.2 ⟨fun e he => ?_, hmore.stored⟩
    rw [hmore.document?_eq, h.stored e he]
    rfl
  others key hkey := by
    rw [List.map_append, List.mem_append, not_or] at hkey
    rw [hmore.others key hkey.2, h.others key hkey.1]
  found := by
    refine List.forall_mem_append.2 ⟨h.found, fun e he => ?_⟩
    rw [← h.found_eq, hmore.found e he]

end Loads

/-! ## One document -/

theorem load_fst_eq_found (cache : DocumentCache) (t : FileTree) (path : String) :
    (cache.load t path).1 =
      found t (Registry.document? cache (t.absolute path)) (t.absolute path) := by
  cases hkept : Registry.document? cache (t.absolute path) with
  | some document => rw [load_eq_of_kept hkept, found]
  | none =>
    rw [found]
    cases hread : read t (t.absolute path) with
    | ok document => rw [load_eq_of_read hkept hread]
    | error f => rw [load_eq_of_error hkept hread]

/-- A load that succeeds keeps the document. -/
theorem loads_of_load (h : cache.load t path = (.ok document, next)) :
    Loads t cache [(t.absolute path, document)] next := by
  have hfound : found t (Registry.document? cache (t.absolute path)) (t.absolute path) =
      .ok document := by
    rw [← load_fst_eq_found, h]
  refine ⟨?_, List.forall_mem_singleton.2 hfound⟩
  rcases load_cases h with ⟨hkept, rfl⟩ | ⟨-, hread, rfl⟩
  · exact ⟨List.forall_mem_singleton.2 hkept, fun _ _ => rfl⟩
  · obtain ⟨-, ms, rfl⟩ := read_ok (t.isNormal_absolute path) hread
    refine ⟨List.forall_mem_singleton.2 ?_, fun key hkey => ?_⟩
    · exact document?_eq_some.2 ⟨(Keyed.get?_put ..).trans (if_pos rfl), by simp⟩
    · exact (Keyed.get?_put ..).trans (if_neg fun heq => hkey (by simp [heq]))

/-! ## Many documents -/

/-- The loads of `gatherFrom`, with their answers. -/
def gatherEvents (t : FileTree) :
    Nat → DocumentCache → Registry → List String → List DocumentCache.Event
  | 0, _, _, _ => []
  | _, _, _, [] => []
  | fuel + 1, cache, loaded, key :: queue =>
    match DocumentCache.load cache t key with
    | (.error f, _) => [.load key (.error f)]
    | (.ok document, cache) =>
      let loaded := loaded ++ [(key, document)]
      .load key (.ok document) :: gatherEvents t fuel cache loaded
        (enqueue (loaded.map Prod.fst) queue (neighbours t key document))

/-- How documents are gathered after some: by loads that succeed, up to the first that fails. -/
inductive Gathers (t : FileTree) (cache : DocumentCache) (loaded : Registry)
    (after : DocumentCache) (events : List DocumentCache.Event) : Except Fault Registry → Prop where
  | all {documents : Registry} (hloads : Loads t cache documents after)
      (hevents : events = DocumentCache.loadsOf documents) :
      Gathers t cache loaded after events (.ok (loaded ++ documents))
  | fails {documents : Registry} {key : String} {f : Fault} (hloads : Loads t cache documents after)
      (hnone : Registry.document? after key = none) (hread : read t key = .error f)
      (hevents : events = DocumentCache.loadsOf documents ++ [.load key (.error f)]) :
      Gathers t cache loaded after events (.error f)

theorem Gathers.stop (t : FileTree) (cache : DocumentCache) (loaded : Registry) :
    Gathers t cache loaded cache [] (.ok loaded) := by
  have h : Gathers t cache loaded cache [] (.ok (loaded ++ [])) := .all (.nil t cache) rfl
  rwa [List.append_nil] at h

/-- One document is loaded before the others are gathered. -/
theorem Gathers.cons {loaded : Registry} {events : List DocumentCache.Event}
    {answer : Except Fault Registry} (hone : Loads t cache [(key, document)] next)
    (h : Gathers t next (loaded ++ [(key, document)]) after events answer) :
    Gathers t cache loaded after (.load key (.ok document) :: events) answer := by
  cases h with
  | all hloads hevents =>
    rw [List.append_assoc]
    exact .all (hone.append hloads) (congrArg _ hevents)
  | fails hloads hnone hread hevents =>
    exact .fails (hone.append hloads) hnone hread (congrArg _ hevents)

theorem gatherFrom_gathers (steps : Nat) (cache : DocumentCache) (loaded : Registry)
    {queue : List String} (hqueue : ∀ key ∈ queue, Path.IsNormal key) :
    Gathers t cache loaded (gatherFrom t steps cache loaded queue).2
      (gatherEvents t steps cache loaded queue) (gatherFrom t steps cache loaded queue).1 := by
  induction steps generalizing cache loaded queue with
  | zero => exact .stop t cache loaded
  | succ steps ih =>
    cases queue with
    | nil => exact .stop t cache loaded
    | cons key queue =>
      obtain ⟨hkey, hrest⟩ := List.forall_mem_cons.1 hqueue
      have hsame : t.absolute key = key := Path.absolute_of_isNormal hkey _
      rw [gatherFrom, gatherEvents]
      cases hload : cache.load t key with
      | mk answer next =>
        cases answer with
        | error f =>
          obtain ⟨hnone, hread, rfl⟩ := load_error hload
          rw [hsame] at hnone hread
          exact .fails (.nil t cache) hnone hread rfl
        | ok document =>
          have hone := loads_of_load hload
          rw [hsame] at hone
          have hnext : ∀ k ∈ enqueue ((loaded ++ [(key, document)]).map Prod.fst) queue
              (neighbours t key document), Path.IsNormal k := by
            intro k hk
            rcases mem_enqueue.1 hk with hk | ⟨hk, -⟩
            · exact hrest k hk
            · exact isNormal_of_mem_neighbours hk
          exact .cons hone (ih next _ hnext)

theorem gather_eq_error : gather t cache path = (.error f, after) ↔
    gatherFrom t (2 * t.entries.length + cache.length + 2) cache [] [t.absolute path] =
      (.error f, after) := by
  refine ⟨fun h => ?_, gather_error⟩
  unfold gather at h
  dsimp only at h
  generalize gatherFrom t _ cache [] [t.absolute path] = run at h ⊢
  obtain ⟨answer, next⟩ := run
  cases answer with
  | error g => simpa [Except.map] using h
  | ok documents => simp [Except.map] at h

end Library

/-! ## Sessions -/

/-- A use of a cache, or a change of the files in between. -/
inductive DocumentCache.Use where
  | edit (files : FileTree)
  | load (path : String)
  | gather (path : String)
  | put (key : String) (document : Value)
  | invalidate (key : Option String)

/-- Files, a cache, and what happened to the cache. -/
structure Session where
  files : FileTree
  cache : DocumentCache
  past : List DocumentCache.Event

namespace Session

def start (files : FileTree) : Session := { files, cache := [], past := [] }

/-- The steps that `Library.gather` takes at most. -/
def steps (s : Session) : Nat := 2 * s.files.entries.length + s.cache.length + 2

/-- The loads of `Library.gather`. -/
def gatherEvents (s : Session) (path : String) : List DocumentCache.Event :=
  Library.gatherEvents s.files s.steps s.cache [] [s.files.absolute path]

def after (s : Session) : DocumentCache.Use → Session
  | .edit files => { s with files }
  | .load path =>
    { s with
      cache := (s.cache.load s.files path).2
      past := s.past ++ [.load (s.files.absolute path) (s.cache.load s.files path).1] }
  | .gather path =>
    { s with
      cache := (Library.gather s.files s.cache path).2
      past := s.past ++ s.gatherEvents path }
  | .put key document =>
    { s with cache := s.cache.put key document, past := s.past ++ [.put key document] }
  | .invalidate key =>
    { s with cache := s.cache.invalidate key, past := s.past ++ [.invalidate key] }

def run (s : Session) (uses : List DocumentCache.Use) : Session := uses.foldl after s

/-- What a session remembers. Under each key is what is kept after the past. A load finds it, or
what the file holds now if there is none, and stores what is found; if it fails, the cache stays as
it is. The same holds of the documents that are gathered. If this fails then at a key under which
nothing is kept, and whose entry stays as it is; the documents before it are found and stored. -/
structure Remembers (s : Session) : Prop where
  kept : ∀ key, Registry.document? s.cache key = DocumentCache.kept s.past key
  load : ∀ path, (s.cache.load s.files path).1 = Library.found s.files
    (DocumentCache.kept s.past (s.files.absolute path)) (s.files.absolute path)
  load_stores : ∀ {path document after}, s.cache.load s.files path = (.ok document, after) →
    s.cache.Stores [(s.files.absolute path, document)] after
  load_fails : ∀ {path f after}, s.cache.load s.files path = (.error f, after) → after = s.cache
  gather : ∀ {path target documents after},
    Library.gather s.files s.cache path = (.ok (target, documents), after) →
    s.gatherEvents path = DocumentCache.loadsOf documents ∧
      (∀ e ∈ documents,
        Library.found s.files (DocumentCache.kept s.past e.1) e.1 = .ok e.2) ∧
      s.cache.Stores documents after
  gather_fails : ∀ {path f after}, Library.gather s.files s.cache path = (.error f, after) →
    ∃ documents key,
      s.gatherEvents path = DocumentCache.loadsOf documents ++ [.load key (.error f)] ∧
      (∀ e ∈ documents,
        Library.found s.files (DocumentCache.kept s.past e.1) e.1 = .ok e.2) ∧
      s.cache.Stores documents after ∧
      key ∉ documents.map Prod.fst ∧ DocumentCache.kept s.past key = none ∧
      Library.read s.files key = .error f
  gather_ends : ∀ path more,
    Library.gatherFrom s.files (s.steps + more) s.cache [] [s.files.absolute path] =
      Library.gatherFrom s.files s.steps s.cache [] [s.files.absolute path]

variable {s : Session}

theorem gathers (s : Session) (path : String) :
    Library.Gathers s.files s.cache [] (Library.gather s.files s.cache path).2
      (s.gatherEvents path)
      (Library.gatherFrom s.files s.steps s.cache [] [s.files.absolute path]).1 :=
  Library.gatherFrom_gathers s.steps s.cache []
    (List.forall_mem_singleton.2 (s.files.isNormal_absolute path))

/-! ## What a session remembers -/

/-- Under each key is what is kept after the past. -/
def Faithful (s : Session) : Prop :=
  ∀ key, Registry.document? s.cache key = DocumentCache.kept s.past key

theorem Faithful.after (h : s.Faithful) (use : DocumentCache.Use) : (s.after use).Faithful := by
  intro key
  have hkey := h key
  cases use with
  | edit files => exact hkey
  | load path =>
    dsimp only [Session.after]
    rw [DocumentCache.kept_load, ← hkey]
    cases hload : s.cache.load s.files path with
    | mk answer next =>
      cases answer with
      | ok document =>
        have hloads := Library.loads_of_load hload
        have hne := hloads.ne_null (List.mem_singleton_self _)
        rw [hloads.document?_eq, Registry.document?_cons hne]
        rfl
      | error f =>
        obtain ⟨-, -, rfl⟩ := Library.load_error hload
        exact Option.or_none.symm
  | gather path =>
    dsimp only [Session.after]
    have hgathers := s.gathers path
    generalize (Library.gatherFrom s.files s.steps s.cache [] _).1 = answer at hgathers
    cases hgathers with
    | all hloads hevents =>
      rw [hevents, DocumentCache.kept_append_loadsOf fun _ => hloads.ne_null, ← hkey]
      exact hloads.document?_eq key
    | fails hloads _ _ hevents =>
      rw [hevents, ← List.append_assoc, DocumentCache.kept_load,
        DocumentCache.kept_append_loadsOf fun _ => hloads.ne_null, ← hkey]
      exact (hloads.document?_eq key).trans Option.or_none.symm
  | put k document =>
    dsimp only [Session.after]
    rw [DocumentCache.kept_put, ← hkey]
    exact Registry.document?_put ..
  | invalidate k =>
    dsimp only [Session.after]
    rw [DocumentCache.kept_invalidate, ← hkey]
    cases k with
    | none => rfl
    | some k =>
      refine (Registry.document?_remove ..).trans ?_
      simp

/-- Uses of the cache and changes of the files leave it so. -/
theorem Faithful.run (h : s.Faithful) (uses : List DocumentCache.Use) : (s.run uses).Faithful := by
  induction uses generalizing s with
  | nil => exact h
  | cons use rest ih => exact ih (h.after use)

theorem Faithful.remembers (h : s.Faithful) : s.Remembers where
  kept := h
  load path := by
    rw [← h]
    exact Library.load_fst_eq_found ..
  load_stores hload := (Library.loads_of_load hload).toStores
  load_fails hload := (Library.load_error hload).2.2.symm
  gather {path target documents after} hgather := by
    obtain ⟨-, hrun⟩ := Library.gather_eq_ok.1 hgather
    have hgathers := s.gathers path
    rw [hgather, steps, hrun] at hgathers
    cases hgathers with
    | all hloads hevents =>
      exact ⟨hevents, fun e he => h e.1 ▸ hloads.found e he, hloads.toStores⟩
  gather_fails {path f after} hgather := by
    have hrun := Library.gather_eq_error.1 hgather
    have hgathers := s.gathers path
    rw [hgather, steps, hrun] at hgathers
    cases hgathers with
    | @fails documents key _ hloads hnone hread hevents =>
      have hnew : key ∉ documents.map Prod.fst := by
        intro hkey
        obtain ⟨e, he, rfl⟩ := List.mem_map.1 hkey
        exact Option.some_ne_none _ ((hloads.stored e he).symm.trans hnone)
      have hbefore : Registry.document? s.cache key = none := by
        rw [hloads.document?_eq] at hnone
        exact (Option.or_eq_none_iff.1 hnone).1
      exact ⟨documents, key, hevents, fun e he => h e.1 ▸ hloads.found e he, hloads.toStores, hnew,
        (h key).symm.trans hbefore, hread⟩
  gather_ends path more := Library.gatherFrom_add (List.subset_append_left _ _)
    (.gather s.files s.cache path) (Library.length_known_lt s.files s.cache) more

end Session

/-- After any uses of one cache, with any changes of the files in between, a session remembers: a
document that is loaded, alone or with others, is the one that was put last or else loaded first
since it was last dropped, and the one in the file now if there is none, which is then kept; and
loading that fails keeps nothing for what fails, and leaves all that is kept. -/
theorem cached_documents (files : FileTree) (uses : List DocumentCache.Use) :
    ((Session.start files).run uses).Remembers :=
  Session.Faithful.remembers (Session.Faithful.run (fun _ => rfl) uses)

/-- A document is found when its file is gone, until it is dropped. -/
example : ([[], [.invalidate (some "/a.json")]].map fun uses =>
    let s := (Session.start ((FileTree.empty []).addFile ["a.json".toList] (.text "{}"))).run
      ([.load "a.json", .edit (FileTree.empty [])] ++ uses)
    (s.cache.load s.files "/a.json").1.toOption.isSome) = [true, false] := by decide +kernel

end ApiTypes

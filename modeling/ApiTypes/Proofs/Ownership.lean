import ApiTypes.Proofs.Faults

/-!
# Where references are resolved

A reference counts in the document that holds it. Whatever is read of a document refers to what that
document refers to, and is resolved where that document is read.

* `Context.Owns` : the document that is being read holds some references;
* `Registry.Closed` : documents of which all files that they refer to are there;
* `owned_laws` : where the document that is being read is one of such documents and holds the
  references that are read, so does each that they lead to, and none of these is missed;
* `Bundle.failsOnly_make` : so over such documents no run misses a file;
* `loaded_references` : the documents that are loaded for a run are such.
-/

namespace ApiTypes

/-! ## Documents that refer to each other -/

/-- Documents of which each is found under its key, and all that they refer to is there unless it
has a web address. -/
structure Registry.Closed (documents : Registry) : Prop where
  found : ∀ e ∈ documents, documents.document? e.1 = some e.2
  reached : ∀ e ∈ documents, ∀ ref ∈ e.2.refs, Url.isWeb (Pointer.split ref).1 = false →
    ∀ ctx : Context, ctx.current = e.1 → ∃ other ∈ documents,
      Reference.documentKey ctx (Pointer.split ref).1 = .ok other.1

/-- The document that is being read is there, and refers to what is given. -/
def Context.Owns (ctx : Context) (refs : List String) : Prop :=
  ∃ document, (ctx.current, document) ∈ ctx.registry ∧ refs ⊆ document.refs

/-- A failure, unless it is to find a document that has no web address. -/
def Fault.Excused (f : Fault) : Prop :=
  ∀ u key, f = .unresolved u → u.reason = some (.notLoaded key) →
    Url.isWeb (Pointer.split u.ref).1 = true

theorem excused_defect (d : Defect) : Fault.Excused (.defect d) := by
  intro u key h
  cases h

theorem Fault.Excused.within {f : Fault} (h : f.Excused) (declaration : String) :
    (f.within declaration).Excused := by
  cases f with
  | unresolved u =>
    intro w key hw hreason
    obtain rfl := Fault.unresolved.inj hw
    unfold Unresolved.within at hreason ⊢
    split_ifs at hreason ⊢
    · exact h u key rfl hreason
    · exact h u key rfl hreason
  | _ => exact h

section
variable {ctx : Context} {refs more : List String}

theorem Context.Owns.mono (h : ctx.Owns more) (hsub : refs ⊆ more) : ctx.Owns refs := by
  obtain ⟨document, hdocument, hrefs⟩ := h
  exact ⟨document, hdocument, List.Subset.trans hsub hrefs⟩

theorem Context.Owns.entering (h : ctx.Owns refs) (key pointer : String) :
    (ctx.entering key pointer).Owns refs := by
  unfold Context.entering
  split
  · exact h
  · exact h

end

/-! ## References -/

namespace Reference

variable {ctx : Context} {ref : String}

/-- A reference that the document being read holds leads to a document that is there. -/
theorem failsOnly_locate (hclosed : ctx.registry.Closed) (howns : ctx.Owns [ref]) :
    FailsOnly Fault.Excused (locate ctx ref) := by
  refine (failsOnly_documentKey excused_defect _).bind fun key hkey => ?_
  split
  · rename_i hmissing
    refine failsOnly_error fun u other hu _ => ?_
    obtain rfl := Fault.unresolved.inj hu
    by_contra hweb
    obtain ⟨document, hdocument, href⟩ := howns
    obtain ⟨e, he, hlocated⟩ := hclosed.reached _ hdocument ref (href (List.mem_singleton_self _))
      (by simpa using hweb) ctx rfl
    obtain rfl : key = e.1 := Except.ok.inj (hkey.symm.trans hlocated)
    rw [hclosed.found e he] at hmissing
    cases hmissing
  · split
    · exact failsOnly_ok _
    · refine failsOnly_error fun u other hu hreason => ?_
      obtain rfl := Fault.unresolved.inj hu
      cases hreason
    · exact Form.failsOnly_fail excused_defect _

/-- What a reference leads to is held by the document that it leads to. -/
theorem locate_owns {located : Located} (h : locate ctx ref = .ok located) :
    (ctx.reading located.document).Owns located.node.refs := by
  obtain ⟨document, hdocument, hwalk⟩ := locate_ok h
  exact ⟨document, Keyed.mem_of_get? (Library.document?_eq_some.1 hdocument).1,
    Pointer.refs_of_walk hwalk⟩

/-- Among closed documents, references are read in the documents that hold them. -/
theorem owned_laws :
    Laws Fault.Excused (fun ctx refs => ctx.registry.Closed ∧ ctx.Owns refs) where
  defect := excused_defect
  mono _ _ _ h hsub := ⟨h.1, h.2.mono hsub⟩
  fails _ _ h := failsOnly_locate h.1 h.2
  found _ _ located h hlocated :=
    ⟨Context.keeps_entering (Q := (·.registry.Closed)) (fun _ _ _ h => h) h.1 _ _,
      (locate_owns hlocated).entering located.document located.pointer⟩

end Reference

/-! ## All operations -/

namespace Operation

variable {ctx : Context}

theorem failsOnly_ofTarget (hclosed : ctx.registry.Closed)
    (howns : ctx.Owns (ctx.registry.document ctx.target).refs) :
    FailsOnly Fault.Excused (ofTarget ctx).outcome := by
  refine Timed.failsOnly_bind (failsOnly_written excused_defect) fun ws hws => ?_
  refine Timed.failsOnly_all fun x hx => ?_
  obtain ⟨w, hw, rfl⟩ := List.mem_map.1 hx
  exact Timed.failsOnly_mapError
    (Reference.owned_laws.failsOnly_make ⟨hclosed, howns.mono (refs_of_written hws w hw)⟩ _ _)
    fun f hf => hf.within _

end Operation

/-! ## All that a run declares -/

theorem Definition.failsOnly_ofDocument {ctx : Context} (hclosed : ctx.registry.Closed)
    (howns : ctx.Owns ctx.document.refs) :
    FailsOnly Fault.Excused (ofDocument ctx).outcome := by
  refine Timed.failsOnly_bind (Components.failsOnly_entries excused_defect) fun es hes => ?_
  refine Timed.failsOnly_bind (Timed.failsOnly_all fun x hx => ?_) fun ds _ => failsOnly_ok _
  obtain ⟨e, he, rfl⟩ := List.mem_map.1 hx
  refine Timed.failsOnly_bind (Form.failsOnly_pascal excused_defect _) fun base _ => ?_
  refine Timed.failsOnly_bind (Form.failsOnly_suffixed excused_defect _ _) fun name _ => ?_
  refine Timed.failsOnly_bind (Timed.failsOnly_mapError ?_ fun f hf => hf.within name)
    fun r _ => failsOnly_ok _
  exact Reference.owned_laws.failsOnly_value
    ⟨hclosed, howns.mono (Components.refs_of_entries hes e he)⟩ _

/-- A document that is there holds what it refers to. -/
theorem Registry.Closed.owns {documents : Registry} (h : documents.Closed) {key : String}
    (hkey : key ∈ documents.map Prod.fst) (overrides : Value) :
    (Context.start documents key overrides).Owns (documents.document key).refs := by
  obtain ⟨⟨key, document⟩, he, rfl⟩ := List.mem_map.1 hkey
  refine ⟨document, he, Value.refs_orEmpty fun w hw => ?_⟩
  obtain rfl : document = w := Option.some.inj ((h.found _ he).symm.trans hw)
  exact List.Subset.refl _

/-- Over documents of which all that they refer to is there, no run misses one. -/
theorem Bundle.failsOnly_make {documents : Registry} (hclosed : documents.Closed) {target : String}
    (htarget : target ∈ documents.map Prod.fst) (config : Config) :
    FailsOnly Fault.Excused (make config target documents) := by
  have howns : ∀ key ∈ documents.map Prod.fst, FailsOnly Fault.Excused
      (Definition.ofDocument (.start documents key config.overrides)).outcome := fun key hkey =>
    @Definition.failsOnly_ofDocument (.start documents key config.overrides) hclosed
      (hclosed.owns hkey _)
  have hoperations := @Operation.failsOnly_ofTarget (.start documents target config.overrides)
    hclosed (hclosed.owns htarget _)
  refine FailsOnly.bind hoperations fun operations _ => ?_
  refine (howns target htarget).bind fun own _ => ?_
  refine FailsOnly.bind (.mapM fun key hkey => ?_) fun others _ => ?_
  · have hmem : key ∈ documents.map Prod.fst :=
      List.mem_mergeSort.1 (List.mem_filter.1 hkey).1
    exact (howns key hmem).bind fun ds _ => failsOnly_ok _
  · refine FailsOnly.bind ?_ fun info _ => failsOnly_ok _
    exact (Form.failsOnly_mapping excused_defect _).bind fun ms _ =>
      Form.failsOnly_optionalMapping excused_defect _

/-! ## The files of a run -/

section
variable {P : Fault → Prop} (hdefect : ∀ d, P (.defect d))
include hdefect

theorem Layout.failsOnly_operationText (op : Operation) : FailsOnly P (operationText op) := by
  refine FailsOnly.bind ?_ fun pathParams _ => failsOnly_ok _
  unfold pathParamsText
  split_ifs
  · exact failsOnly_ok _
  · refine FailsOnly.bind (.mapM fun p _ => ?_) fun texts _ => failsOnly_ok _
    exact (Form.failsOnly_text hdefect _).bind fun name _ => failsOnly_ok _

theorem Emission.failsOnly_writeAll (t : FileTree) (files : List OutputFile) :
    FailsOnly P (writeAll t files).1 := by
  induction files generalizing t with
  | nil => exact failsOnly_ok _
  | cons f rest ih =>
    rw [writeAll]
    split
    · exact ih _
    · exact failsOnly_error (hdefect _)

theorem Emission.failsOnly_operationsFile (b : Bundle) (output : String) :
    FailsOnly P (operationsFile b output) := by
  unfold operationsFile
  split_ifs
  · exact failsOnly_ok _
  · refine FailsOnly.bind ?_ fun text _ => failsOnly_ok _
    exact FailsOnly.bind (.mapM fun op _ => Layout.failsOnly_operationText hdefect op)
      fun texts _ => failsOnly_ok _

theorem Emission.failsOnly_write (t : FileTree) (b : Bundle) (output : String) :
    FailsOnly P (write t b output).1 := by
  have hmodels := failsOnly_writeAll hdefect t (modelFiles b output)
  have hoperations := failsOnly_operationsFile hdefect b output
  unfold write
  dsimp only
  split
  · rename_i f _ hwrite
    rw [hwrite] at hmodels
    exact failsOnly_error (hmodels f rfl)
  · split
    · rename_i f hfile
      exact failsOnly_error (hoperations f hfile)
    · exact (failsOnly_writeAll hdefect _ _).map _

end

/-! ## What is loaded for a run -/

theorem Url.isWeb_of_isAbsolute {key : String} (h : Path.isAbsolute key.toList = true) :
    isWeb key = false := by
  unfold isWeb Text.startsWith
  cases hkey : key.toList with
  | nil => simp [hkey, Path.isAbsolute] at h
  | cons c rest =>
    obtain rfl : c = '/' := by simpa [hkey, Path.isAbsolute] using h
    rfl

/-- All that the documents refer to which were loaded for a run was loaded with them. -/
theorem Library.Loading.closed_registry {t : FileTree} {known : List String}
    {cache documents : Registry} (h : Loading t known cache documents []) : documents.Closed where
  found _ he := h.document?_eq he
  reached e he ref href hweb ctx hctx := by
    have hnormal := h.normal e.1 (List.mem_append_left _ (List.mem_map.2 ⟨e, he, rfl⟩))
    unfold Reference.documentKey
    rw [hctx, hweb, Url.isWeb_of_isAbsolute hnormal.isAbsolute]
    by_cases hempty : (Pointer.split ref).1 = ""
    · exact ⟨e, he, by rw [if_pos hempty]⟩
    · have hneighbour : neighbour? t e.1 ref =
          some (Path.normalize (Path.join (Path.directory e.1) (Pointer.split ref).1)) := by
        unfold neighbour?
        dsimp only
        rw [if_neg (by simp [hempty, hweb]), FileTree.absolute, Path.absolute_of_isAbsolute
          (Path.isAbsolute_join_directory hnormal.isAbsolute _)]
      have hmem := h.closed e he _ (List.mem_filterMap.2 ⟨ref, href, hneighbour⟩)
      rw [List.append_nil] at hmem
      obtain ⟨other, hother, hkey⟩ := List.mem_map.1 hmem
      refine ⟨other, hother, ?_⟩
      rw [if_neg hempty, if_neg Bool.false_ne_true, if_neg Bool.false_ne_true, hkey]

/-- Loading and resolving agree on documents: what a loaded document refers to under no web address
is one of the loaded documents for whatever reads it there, and no run over them misses one. -/
theorem loaded_references {t : FileTree} {cache cache' : DocumentCache} {entry target : String}
    {documents : Registry}
    (h : Library.gather t cache entry = (.ok (target, documents), cache')) :
    (∀ e ∈ documents, ∀ ref ∈ e.2.refs, Url.isWeb (Pointer.split ref).1 = false →
      ∀ ctx : Context, ctx.current = e.1 → ∃ key ∈ documents.map Prod.fst,
        Reference.documentKey ctx (Pointer.split ref).1 = .ok key) ∧
    (∀ config main, main ∈ documents.map Prod.fst → ∀ u key,
      Bundle.make config main documents = .error (.unresolved u) →
      u.reason = some (.notLoaded key) → Url.isWeb (Pointer.split u.ref).1 = true) ∧
    ∀ config : Config, config.input = entry → ∀ u key,
      (Command.generate t cache config).1 = .error (.unresolved u) →
      u.reason = some (.notLoaded key) → Url.isWeb (Pointer.split u.ref).1 = true := by
  obtain ⟨-, htarget, hloading⟩ := Library.gather_ok h
  have hclosed := hloading.closed_registry
  refine ⟨fun e he ref href hweb ctx hctx => ?_, fun config main hmain u key hu => ?_,
    fun config hentry u key hu => ?_⟩
  · obtain ⟨other, hother, hkey⟩ := hclosed.reached e he ref href hweb ctx hctx
    exact ⟨other.1, List.mem_map.2 ⟨other, hother, rfl⟩, hkey⟩
  · exact Bundle.failsOnly_make hclosed hmain config _ hu u key rfl
  · subst hentry
    have hload := Bundle.load_eq config h
    have hmake := Bundle.failsOnly_make hclosed htarget config
    unfold Command.generate at hu
    rw [hload] at hu
    cases hbundle : Bundle.make config target documents with
    | error f =>
      rw [hbundle] at hu
      exact hmake f hbundle u key (Except.error.inj hu)
    | ok b =>
      rw [hbundle] at hu
      exact (Emission.failsOnly_write excused_defect t b config.output).map _ _ hu u key rfl

/-- Two files that refer to each other. -/
def petTree : FileTree :=
  let work := ['w', 'o', 'r', 'k']
  let api := "\x7b\"Pet\": \x7b\"$ref\": \"./parts/pet.json\"\x7d\x7d"
  let pet := "\x7b\"items\": \x7b\"$ref\": \"../parts/../api.json#/Pet\"\x7d\x7d"
  ((FileTree.empty [work]).addFile [work, "api.json".toList] (.text api)).addFile
    [work, "parts".toList, "pet.json".toList] (.text pet)

theorem loaded_references_pet :
    ∃ documents cache, Library.gather petTree [] "api.json" =
        (.ok ("/work/api.json", documents), cache) ∧
      documents.map (fun e => (e.1, e.2.refs)) =
        [("/work/api.json", ["./parts/pet.json"]),
          ("/work/parts/pet.json", ["../parts/../api.json#/Pet"])] ∧
      ∀ e ∈ documents, ∀ ref ∈ e.2.refs, Url.isWeb (Pointer.split ref).1 = false →
        ∀ ctx : Context, ctx.current = e.1 → ∃ key ∈ documents.map Prod.fst,
          Reference.documentKey ctx (Pointer.split ref).1 = .ok key := by
  obtain ⟨⟨target, documents⟩, hrun, hkeys⟩ := Except.exists_of_any
    (x := (Library.gather petTree [] "api.json").1)
    (p := fun r => r.1 = "/work/api.json" ∧ r.2.map (fun e => (e.1, e.2.refs)) =
      [("/work/api.json", ["./parts/pet.json"]),
        ("/work/parts/pet.json", ["../parts/../api.json#/Pet"])])
    (by decide +kernel)
  obtain ⟨rfl, hrefs⟩ := of_decide_eq_true hkeys
  generalize hgather : Library.gather petTree [] "api.json" = run at hrun ⊢
  obtain ⟨result, cache⟩ := run
  obtain rfl : result = .ok ("/work/api.json", documents) := hrun
  exact ⟨documents, cache, rfl, hrefs, (loaded_references hgather).1⟩

end ApiTypes

import ApiTypes.Proofs.Closed
import ApiTypes.Proofs.Entries
import ApiTypes.Proofs.Origin

/-!
# What is imported from documents

* `Components.Entry.Names`, `Bundle.Names` : the names that are declared for an entry and for a
  document: of entries, of what is declared below them, and of what operations need;
* `Bundle.volume_names` : a run declares those names for each document;
* `cross_imports` : the imports from documents are what references stand for, and they are declared
  where those names are, so where references lead to entries;
* `cross_imports_undeclared` : a reference that leads elsewhere.
-/

namespace ApiTypes

/-! ## Declared names -/

/-- A name that is declared for an entry: its own, or one of those below it. -/
inductive Components.Entry.Names (ctx : Context) (e : Components.Entry) : String → Prop
  | own {name : String} (hname : e.declaredName = .ok name) : Names ctx e name
  | below {name : String} {r : Resolved} {d : Declaration} (hname : e.declaredName = .ok name)
      (hr : (Resolve.value ctx (Schema.ofValue e.schema) (some name)).outcome = .ok r)
      (hd : d ∈ r.declarations) : Names ctx e d.name

theorem Definition.ofEntry_names {ctx : Context} {e : Components.Entry} {ds : List Declaration}
    (h : (ofEntry ctx e).outcome = .ok ds) (n : String) :
    (∃ d ∈ ds, d.name = n) ↔ e.Names ctx n := by
  obtain ⟨base, name, hbase, hsuffixed, hschema⟩ := ofEntry_ok.1 h
  obtain ⟨r, hr, rfl⟩ := ofSchema_ok.1 hschema
  have hname : e.declaredName = .ok name := by
    unfold Components.Entry.declaredName
    rw [hbase]
    exact hsuffixed
  refine ((Declaration.gathers_merge _).names n).trans ⟨?_, ?_⟩
  · rintro ⟨d, hd, rfl⟩
    rcases List.mem_append.1 hd with hd | hd
    · exact .below hname hr hd
    · obtain rfl := List.mem_singleton.1 hd
      exact .own hname
  · intro hn
    cases hn with
    | own hown =>
      obtain rfl : n = name := Except.ok.inj (hown.symm.trans hname)
      exact ⟨_, List.mem_append_right _ (List.mem_singleton_self _), rfl⟩
    | below hown hvalue hd =>
      obtain rfl := Except.ok.inj (hown.symm.trans hname)
      obtain rfl := Except.ok.inj (hvalue.symm.trans hr)
      exact ⟨_, List.mem_append_left _ hd, rfl⟩

theorem Definition.ofDocument_names {ctx : Context} {ds : List Declaration}
    (h : (ofDocument ctx).outcome = .ok ds) (n : String) :
    (∃ d ∈ ds, d.name = n) ↔
      ∃ es, Components.entries ctx = .ok es ∧ ∃ e ∈ es, e.Names ctx n := by
  obtain ⟨entries, results, hentries, hresults, rfl⟩ := ofDocument_ok.1 h
  constructor
  · rintro ⟨d, hd, hname⟩
    obtain ⟨ds, hds, hd⟩ := List.mem_flatten.1 hd
    obtain ⟨e, he, hentry⟩ := exists_left_of_forall₂ hresults hds
    exact ⟨entries, hentries, e, he, (ofEntry_names hentry n).1 ⟨d, hd, hname⟩⟩
  · rintro ⟨es, hes, e, he, hn⟩
    obtain rfl : es = entries := Except.ok.inj (hes.symm.trans hentries)
    obtain ⟨ds, hds, hentry⟩ := exists_right_of_forall₂ hresults he
    obtain ⟨d, hd, hname⟩ := (ofEntry_names hentry n).2 hn
    exact ⟨d, List.mem_flatten.2 ⟨ds, hds, hd⟩, hname⟩

namespace Bundle

variable {config : Config} {target : String} {documents : Registry} {b : Bundle}

/-- A name that a run declares for a document: for an entry of it, or, in the target, for an
operation. -/
def Names (config : Config) (documents : Registry) (b : Bundle) (key n : String) : Prop :=
  (∃ es, Components.entries (contextOf config documents key) = .ok es ∧
    ∃ e ∈ es, e.Names (contextOf config documents key) n) ∨
  key = b.target ∧ ∃ op ∈ b.operations, ∃ d ∈ op.declarations, d.name = n

theorem volume_names (h : make config target documents = .ok b) {v : Volume} (hv : v ∈ b.volumes)
    (n : String) :
    (∃ d ∈ v.declarations, d.name = n) ↔ Names config documents b v.document n := by
  obtain ⟨ds, hds, hfirst⟩ := volume_ok h hv
  rw [hfirst, (gathers_firstOfName _).names n, Names, ← Definition.ofDocument_names hds n]
  simp only [List.mem_append, or_and_right, exists_or]
  refine or_congr_right ?_
  split
  · rename_i htarget
    simp only [List.mem_flatMap]
    constructor
    · rintro ⟨d, ⟨op, hop, hd⟩, hname⟩
      exact ⟨htarget, op, hop, d, hd, hname⟩
    · rintro ⟨-, op, hop, d, hd, hname⟩
      exact ⟨d, ⟨op, hop, hd⟩, hname⟩
  · rename_i htarget
    simp [htarget]

/-- Each document that is loaded has its declarations. -/
theorem exists_volume (h : make config target documents = .ok b) {key : String} {document : Value}
    (hdocument : documents.document? key = some document) : ∃ v ∈ b.volumes, v.document = key := by
  obtain ⟨own, others, -, -, -, -, hvolumes, hothers⟩ := make_ok h
  rw [hvolumes]
  by_cases htarget : key = target
  · exact ⟨_, List.mem_cons_self .., htarget.symm⟩
  · have hmem : key ∈ (keysOf documents).filter (· ≠ target) := by
      refine List.mem_filter.2 ⟨List.mem_mergeSort.2 ?_, by simpa using htarget⟩
      exact Keyed.mem_keys_of_get? (Option.filter_eq_some_iff.1 hdocument).1
    obtain ⟨v, hv, ds, -, rfl⟩ := exists_right_of_forall₂ hothers hmem
    exact ⟨_, List.mem_cons_of_mem _ hv, rfl⟩

theorem entries_ok (h : make config target documents = .ok b) {v : Volume} (hv : v ∈ b.volumes) :
    ∃ es, Components.entries (contextOf config documents v.document) = .ok es := by
  obtain ⟨ds, hds, -⟩ := volume_ok h hv
  obtain ⟨es, -, hes, -⟩ := Definition.ofDocument_ok.1 hds
  exact ⟨es, hes⟩

end Bundle

/-! ## Imports -/

/-- What is imported from a document is what a reference stands for, read in the documents of the
run. Each reference leads to a loaded document, and its name is declared there if and only if it is
one that is declared for an entry or an operation; so if the reference leads to an entry. -/
theorem cross_imports {config : Config} {target : String} {documents : Registry} {b : Bundle}
    (h : Bundle.make config target documents = .ok b) :
    (∀ i ∈ b.imports, i.document ≠ none → i.Referenced documents config.overrides) ∧
    ∀ (ctx : Context) (ref : String) (info : Reference.Info), ctx.registry = documents →
      ctx.overrides = config.overrides → Reference.info ctx ref = .ok info →
      ∃ v ∈ b.volumes, v.document = info.document ∧
        ((∃ d ∈ v.declarations, d.name = info.name) ↔
          Bundle.Names config documents b info.document info.name) ∧
        (info.OfEntry ctx ref → ∃ d ∈ v.declarations, d.name = info.name) := by
  refine ⟨Bundle.make_sourced h, ?_⟩
  rintro ctx ref info rfl hoverrides hinfo
  obtain ⟨document, -, -, -, hdocument, -⟩ := Reference.info_reads hinfo
  obtain ⟨v, hv, hkey⟩ := Bundle.exists_volume h hdocument
  have hnames := Bundle.volume_names h hv info.name
  rw [hkey] at hnames
  refine ⟨v, hv, hkey, hnames, fun hentry => hnames.2 (.inl ?_)⟩
  obtain ⟨es, hes⟩ := Bundle.entries_ok h hv
  have hctx : Bundle.contextOf config ctx.registry info.document = ctx.making info.document := by
    rw [Context.making, Bundle.contextOf, hoverrides]
  rw [hkey] at hes
  obtain ⟨e, he, hname⟩ := Reference.exists_entry hinfo (hctx ▸ hes) hentry
  exact ⟨es, hes, e, he, .own hname⟩

/-- A run over one file. -/
def apiConfig : Config := ⟨"/api.json", "out", Config.defaultSuffixes, true⟩

theorem cross_imports_pet :
    ∃ b, Bundle.make apiConfig "/api.json" [("/api.json", petDocument)] = .ok b ∧
      ⟨"Tag", some "/api.json"⟩ ∈ b.imports ∧
      ∃ v ∈ b.volumes, v.document = "/api.json" ∧ ∃ d ∈ v.declarations, d.name = "Tag" := by
  let ctx := Context.start [("/api.json", petDocument)] "/api.json" apiConfig.overrides
  obtain ⟨b, hb, hmem⟩ := Except.exists_of_any
    (x := Bundle.make apiConfig "/api.json" [("/api.json", petDocument)])
    (p := fun b => decide (⟨"Tag", some "/api.json"⟩ ∈ b.imports)) (by decide +kernel)
  obtain ⟨info, hinfo, hat⟩ := Except.exists_of_any
    (x := Reference.info ctx "#/components/schemas/Tag")
    (p := fun info => decide (info.name = "Tag" ∧ info.document = "/api.json" ∧
      info.tokens = ["components", "schemas", "Tag"])) (by decide +kernel)
  obtain ⟨hname, hdocument, htokens⟩ := of_decide_eq_true hat
  obtain ⟨v, hv, hkey, -, hdeclared⟩ := (cross_imports hb).2 ctx _ info rfl rfl hinfo
  have hsuffix : ctx.suffixFor "schemas" = .ok (.text "") := by
    rfl
  exact ⟨b, hb, of_decide_eq_true hmem, v, hv, hkey.trans hdocument,
    hname ▸ hdeclared (.schema "Tag" htokens hsuffix)⟩

/-- A document whose operation answers with a component response that has no JSON content. -/
def emptyResponseDocument : Value :=
  let ref : Value := .map [(.text "$ref", .text "#/components/responses/Empty")]
  .map [
    (.text "paths", .map [(.text "/pets", .map [(.text "get", .map [
      (.text "responses", .map [(.text "200", ref)])])])]),
    (.text "components", .map [(.text "responses", .map [
      (.text "Empty", .map [(.text "description", .text "none")])])])]

/-- A response without JSON content is no entry, but a reference to it stands for its name. -/
theorem cross_imports_undeclared :
    ∃ b, Bundle.make apiConfig "/api.json" [("/api.json", emptyResponseDocument)] = .ok b ∧
      ⟨"EmptyResponse", some "/api.json"⟩ ∈ b.imports ∧
      ∀ v ∈ b.volumes, ∀ d ∈ v.declarations, d.name ≠ "EmptyResponse" := by
  obtain ⟨b, hb, h⟩ := Except.exists_of_any
    (x := Bundle.make apiConfig "/api.json" [("/api.json", emptyResponseDocument)])
    (p := fun b => decide (⟨"EmptyResponse", some "/api.json"⟩ ∈ b.imports ∧
      ∀ v ∈ b.volumes, ∀ d ∈ v.declarations, d.name ≠ "EmptyResponse")) (by decide +kernel)
  exact ⟨b, hb, of_decide_eq_true h⟩

end ApiTypes

import ApiTypes.Proofs.CrossImports
import ApiTypes.Proofs.SourceLiterals
import ApiTypes.Proofs.Writing

/-!
# Literals in the file of operations

* `Layout.interfaceHead` : what an interface begins with, from the literal of its path and the text
  of its path parameters;
* `Layout.pathParamsText_ok`, `Emission.operationsFile_ok` : these texts, and where they stand;
* `operation_literals` : the path of an operation is its own literal if it has no quote and no
  backslash, and the names of its path parameters are identifiers or literals of themselves;
* `operation_literals_quote` : a path with a quote.
-/

namespace ApiTypes

namespace Layout

/-! ## Texts -/

/-- What the interface of an operation begins with. -/
def interfaceHead (op : Operation) (path pathParams : String) : String :=
  "export interface " ++ op.typeName ++ "Operation \x7b\n" ++
    "  method: '" ++ op.method ++ "';\n" ++
    "  path: " ++ path ++ ";\n" ++ "  pathParams: " ++ pathParams ++ ";\n"

/-- The text of a path parameter. -/
def pathParamText (p : String × TypeExpr) : String :=
  Name.member p.1 ++ ": " ++ p.2.render ++ "; "

theorem exists_named {params : List (Value × TypeExpr)} {texts : List String}
    (h : List.Forall₂ (fun p text => ∃ name, p.1 = .text name ∧ text = pathParamText (name, p.2))
      params texts) :
    ∃ named : List (String × TypeExpr), params = named.map (fun p => (.text p.1, p.2)) ∧
      texts = named.map pathParamText := by
  induction h with
  | nil => exact ⟨[], rfl, rfl⟩
  | @cons p text params texts hp _ ih =>
    obtain ⟨name, hname, rfl⟩ := hp
    obtain ⟨named, rfl, rfl⟩ := ih
    refine ⟨(name, p.2) :: named, ?_, rfl⟩
    rw [List.map_cons, ← hname]

/-- Path parameters are written with texts as names, each as that of a member. -/
theorem pathParamsText_ok {params : List (Value × TypeExpr)} {text : String}
    (h : pathParamsText params = .ok text) :
    ∃ named : List (String × TypeExpr), params = named.map (fun p => (.text p.1, p.2)) ∧
      text = if named.isEmpty then "void"
        else "\x7b " ++ String.join (named.map pathParamText) ++ "\x7d" := by
  unfold pathParamsText at h
  split at h
  · rename_i hempty
    obtain rfl := List.isEmpty_iff.1 hempty
    exact ⟨[], rfl, (Except.ok.inj h).symm⟩
  · rename_i hempty
    obtain ⟨texts, htexts, h⟩ := Except.bind_eq_ok.1 h
    obtain ⟨named, rfl, rfl⟩ := exists_named ((Except.mapM_eq_ok htexts).imp fun p text hp => by
      obtain ⟨name, hname, hp⟩ := Except.bind_eq_ok.1 hp
      exact ⟨name, Form.text_of_ok hname, (Except.ok.inj hp).symm⟩)
    refine ⟨named, rfl, ?_⟩
    rw [if_neg (by simpa using hempty)]
    exact (Except.ok.inj h).symm

/-- The interface of an operation has its path between quotes as it is, and the text of its path
parameters. -/
theorem operationText_ok {op : Operation} {text : String} (h : operationText op = .ok text) :
    ∃ before pathParams after, pathParamsText op.pathParams = .ok pathParams ∧
      text = before ++ interfaceHead op ("'" ++ op.path.plain ++ "'") pathParams ++ after := by
  obtain ⟨pathParams, hparams, h⟩ := Except.bind_eq_ok.1 h
  obtain rfl := Except.ok.inj h
  have hquotes (path rest : String) : "  path: '" ++ (path ++ ("';\n" ++ rest)) =
      "  path: " ++ ("'" ++ (path ++ ("'" ++ (";\n" ++ rest)))) := by
    rw [← String.toList_inj]
    simp
  refine ⟨"\n" ++ Comment.textOf (Comment.make? none none (some op.summary)) false, pathParams,
    "  params: " ++ typeText op.params ++ ";\n" ++ "  body: " ++ typeText op.body ++ ";\n" ++
      "  response: " ++ responseText op.response ++ ";\n\x7d\n", hparams, ?_⟩
  unfold interfaceHead
  simp only [String.append_assoc, hquotes]

/-- The file of operations has the text of each. -/
theorem operationsText_ok {header text : String} {operations : List Operation} {dirs : Folders}
    (h : operationsText header operations dirs = .ok text) {op : Operation}
    (hop : op ∈ operations) :
    ∃ before own after, operationText op = .ok own ∧ text = before ++ own ++ after := by
  obtain ⟨texts, htexts, h⟩ := Except.bind_eq_ok.1 h
  obtain ⟨own, hown, hoperation⟩ := exists_right_of_forall₂ (Except.mapM_eq_ok htexts) hop
  obtain ⟨earlier, later, rfl⟩ := List.append_of_mem hown
  obtain rfl := Except.ok.inj h
  refine ⟨headerText header ++ String.join ((operationImports operations dirs).map
    ImportLine.render) ++ String.join earlier, own, String.join later, hoperation, ?_⟩
  simp only [String.join_append, String.join_cons, String.append_assoc]

end Layout

/-- It has the beginning of the interface of each. -/
theorem Emission.operationsFile_ok {b : Bundle} {output : String} {files : List OutputFile}
    (h : operationsFile b output = .ok files) {op : Operation} (hop : op ∈ b.operations) :
    ∃ f ∈ files, ∃ before pathParams after, Layout.pathParamsText op.pathParams = .ok pathParams ∧
      f.text = before ++ Layout.interfaceHead op ("'" ++ op.path.plain ++ "'") pathParams ++
        after := by
  unfold operationsFile at h
  split at h
  · rename_i hempty
    rw [List.isEmpty_iff.1 hempty] at hop
    cases hop
  · obtain ⟨text, htext, h⟩ := Except.bind_eq_ok.1 h
    obtain rfl := Except.ok.inj h
    obtain ⟨earlier, own, later, hown, rfl⟩ := Layout.operationsText_ok htext hop
    obtain ⟨before, pathParams, after, hparams, rfl⟩ := Layout.operationText_ok hown
    refine ⟨_, List.mem_singleton_self _, earlier ++ before, pathParams, after ++ later,
      hparams, ?_⟩
    simp only [String.append_assoc]

/-- In the file of operations, the path of each operation stands between quotes as it is written,
and that is a literal of it just where it has no quote, backslash or line break. Path parameters are
written under their names: each as an identifier or a literal of itself, just where it has no line
break. -/
theorem operation_literals {config : Config} {target : String} {documents : Registry} {b : Bundle}
    (h : Bundle.make config target documents = .ok b) {output : String} {files : List OutputFile}
    (hfiles : Emission.operationsFile b output = .ok files) :
    ∃ ws, Operation.written (Bundle.contextOf config documents target) = .ok ws ∧
      List.Forall₂ (fun w op => ∃ (ms : Members) (parameters : List Parameter)
          (named : List (String × TypeExpr)) (before after : String),
        w.operation = .map ms ∧
        Operation.parameters (Bundle.contextOf config documents target) w.pathItem ms =
          .ok parameters ∧
        (parameters.filter (·.isIn "path")).map (·.name) = named.map (fun p => Value.text p.1) ∧
        (∃ f ∈ files, f.text = before ++ Layout.interfaceHead op ("'" ++ w.path.plain ++ "'")
          (if named.isEmpty then "void"
            else "\x7b " ++ String.join (named.map Layout.pathParamText) ++ "\x7d") ++ after) ∧
        (Source.Denotes ("'" ++ w.path.plain ++ "'") w.path.plain ↔
          ∀ c ∈ w.path.plain.toList, c ≠ '\\' ∧ c ≠ '\'' ∧ c ≠ '\n' ∧ c ≠ '\r') ∧
        ∀ p ∈ named,
          (Name.isIdentifier p.1.toList = true ∧ Name.member p.1 = p.1 ∨
              Source.Denotes (Name.member p.1) p.1) ↔
            '\n' ∉ p.1.toList ∧ '\r' ∉ p.1.toList) ws b.operations := by
  obtain ⟨-, -, -, -, hoperations, -⟩ := Bundle.make_ok h
  obtain ⟨ws, hws, hmade⟩ := Operation.ofTarget_ok.1 hoperations
  refine ⟨ws, hws, ?_⟩
  have hall := (List.forall₂_and_left _ _).2 ⟨fun op hop => hop, hmade.flip⟩
  refine List.Forall₂.flip (hall.imp fun op w hmade => ?_)
  obtain ⟨hop, hmake⟩ := hmade
  obtain ⟨ms, hms, steps, -, -⟩ := Operation.make_ok hmake
  obtain ⟨f, hf, before, pathParams, after, hparams, htext⟩ := Emission.operationsFile_ok hfiles hop
  obtain ⟨named, hnamed, rfl⟩ := Layout.pathParamsText_ok hparams
  refine ⟨ms, steps.parameters, named, before, after, hms, steps.parameters_ok, ?names,
    ⟨f, hf, steps.path_eq ▸ htext⟩, Source.denotes_between _, fun p _ => Source.member_denotes p.1⟩
  have hresolved : (steps.parameters.filter (·.isIn "path")).map (·.name) =
      steps.pathParams.map Prod.fst := by
    rw [← List.forall₂_eq_eq_eq, List.forall₂_map_left_iff, List.forall₂_map_right_iff]
    exact (Operation.pathParameters_ok steps.pathParams_ok).imp fun _ _ hp => hp.1.symm
  have hwritten : op.pathParams.map Prod.fst = steps.pathParams.map Prod.fst := by
    rw [steps.pathParams_eq, List.map_map]
    rfl
  rw [hresolved, ← hwritten, hnamed, List.map_map]
  rfl

/-- A document with one operation, at a path, that has one path parameter. -/
def itemDocument (path parameter : String) : Value :=
  let parameters : Value := .list [
    .map [(.text "name", .text parameter), (.text "in", .text "path")]]
  .map [(.text "paths", .map [(.text path, .map [(.text "get", .map [
    (.text "parameters", parameters)])])])]

theorem operation_literals_pets :
    ∃ b files w, Bundle.make apiConfig "/api.json"
        [("/api.json", itemDocument "/pets/{pet-id}" "pet-id")] = .ok b ∧
      Emission.operationsFile b "out" = .ok files ∧
      Operation.written (Bundle.contextOf apiConfig
        [("/api.json", itemDocument "/pets/{pet-id}" "pet-id")] "/api.json") = .ok [w] ∧
      w.path.plain = "/pets/{pet-id}" ∧
      Source.Denotes "'/pets/{pet-id}'" "/pets/{pet-id}" := by
  let documents : Registry := [("/api.json", itemDocument "/pets/{pet-id}" "pet-id")]
  obtain ⟨b, hb, hemitted⟩ := Except.exists_of_any
    (x := Bundle.make apiConfig "/api.json" documents)
    (p := fun b => (Emission.operationsFile b "out").toOption.isSome) (by decide +kernel)
  obtain ⟨ws, hws, hpaths⟩ := Except.exists_of_any
    (x := Operation.written (Bundle.contextOf apiConfig documents "/api.json"))
    (p := fun ws => decide (ws.map (·.path.plain) = ["/pets/{pet-id}"])) (by decide +kernel)
  obtain ⟨w, rfl, hpath⟩ := List.map_eq_singleton_iff.1 (of_decide_eq_true hpaths)
  cases hfiles : Emission.operationsFile b "out" with
  | error e =>
    rw [hfiles] at hemitted
    cases hemitted
  | ok files =>
    obtain ⟨ws, hwritten, hall⟩ := operation_literals hb hfiles
    obtain rfl : [w] = ws := Except.ok.inj (hws.symm.trans hwritten)
    obtain ⟨op, -, -, -, -, -, -, -, -, -, -, hliteral, -⟩ :=
      exists_right_of_forall₂ hall (List.mem_singleton_self w)
    have hchars : ("/pets/{pet-id}".toList.all fun c =>
        decide (c ≠ '\\' ∧ c ≠ '\'' ∧ c ≠ '\n' ∧ c ≠ '\r')) = true := by decide
    rw [hpath] at hliteral
    exact ⟨b, files, w, hb, hfiles, hws, hpath,
      hliteral.2 fun c hc => of_decide_eq_true (List.all_eq_true.1 hchars c hc)⟩

/-- The file of an operation at a path with a quote. -/
def quoteText : String :=
  "/**\n * Generated by typegen.\n * Do not edit manually.\n */\n\n" ++
    "\nexport interface GetItSOperation \x7b\n  method: 'get';\n  path: '/it's';\n" ++
    "  pathParams: \x7b id: unknown; \x7d;\n  params: void;\n  body: void;\n" ++
    "  response: void;\n\x7d\n"

/-- The quote of the path ends the literal, and what follows is no source. -/
theorem operation_literals_quote :
    ∃ b f, Bundle.make apiConfig "/api.json" [("/api.json", itemDocument "/it's" "id")] = .ok b ∧
      Emission.operationsFile b "out" = .ok [f] ∧ f.text = quoteText ∧
      ∀ s, ¬ Source.Denotes "'/it's'" s := by
  obtain ⟨b, hb, hfile⟩ := Except.exists_of_any
    (x := Bundle.make apiConfig "/api.json" [("/api.json", itemDocument "/it's" "id")])
    (p := fun b => (Emission.operationsFile b "out").toOption.any fun (files : List OutputFile) =>
      decide (files.map OutputFile.text = [quoteText])) (by decide +kernel)
  obtain ⟨files, hfiles, htexts⟩ := Except.exists_of_any hfile
  obtain ⟨f, rfl, htext⟩ := List.map_eq_singleton_iff.1 (of_decide_eq_true htexts)
  refine ⟨b, f, hb, hfiles, htext, fun s h => ?_⟩
  rw [Source.denotes_iff "/it's".toList (by decide)] at h
  have hread : Source.read .text "/it's".toList = none := by decide
  rw [hread] at h
  cases h

end ApiTypes

import ApiTypes.Emission
import ApiTypes.Proofs.CrossImports
import ApiTypes.Proofs.DocComments

/-!
# Where the header of a file ends

* `Source.afterEnd`, `Source.afterComment` : what is left for a reader of the source after the
  comment that a text begins with;
* `Source.exists_stray` : up to a mark that ends a comment, all is in it just where there is no mark
  before;
* `Layout.noEnd_headerInside` : there is none in the header but for its title and its version;
* `Emission.modelFiles_bare`, `Emission.operationsFile_bare` : files are what they are without a
  header, after it;
* `file_headers` : the comment that a file begins with is the header just where neither the title
  nor the version ends it. Else what follows that end is read as source;
* `file_headers_ended` : a title that does.
-/

namespace ApiTypes

/-! ## Reading -/

namespace Source
open Text

/-- What follows the first mark that ends a comment. -/
def afterEnd : List Char → Option (List Char)
  | '*' :: '/' :: rest => some rest
  | _ :: rest => afterEnd rest
  | [] => none

/-- What follows the comment that a text begins with. -/
def afterComment : List Char → Option (List Char)
  | '/' :: '*' :: rest => afterEnd rest
  | _ => none

theorem exists_of_afterEnd {s rest : List Char} (h : afterEnd s = some rest) :
    ∃ before, s = before ++ '*' :: '/' :: rest := by
  fun_induction afterEnd s with
  | case1 later =>
    obtain rfl := Option.some.inj h
    exact ⟨[], rfl⟩
  | case2 c later _ ih =>
    obtain ⟨before, rfl⟩ := ih h
    exact ⟨c :: before, rfl⟩
  | case3 => cases h

theorem afterEnd_cons {c : Char} {s : List Char} (h : ¬ (c = '*' ∧ s.head? = some '/')) :
    afterEnd (c :: s) = afterEnd s := by
  rw [afterEnd]
  rintro later rfl rfl
  exact h ⟨rfl, rfl⟩

/-- The first mark that ends a comment leaves all that a later one leaves, and no more than that if
none comes before the later one. -/
theorem exists_stray (a b : List Char) :
    ∃ stray, afterEnd (a ++ '*' :: '/' :: b) = some (stray ++ b) ∧
      (stray = [] ↔ NoEnd (a ++ ['*'])) := by
  induction a with
  | nil => exact ⟨[], rfl, iff_of_true rfl (List.isChain_singleton _)⟩
  | cons c a ih =>
    by_cases hend : c = '*' ∧ (a ++ '*' :: '/' :: b).head? = some '/'
    · obtain ⟨rfl, hslash⟩ := hend
      cases a with
      | nil => simp at hslash
      | cons d a =>
        obtain rfl : d = '/' := by simpa using hslash
        refine ⟨a ++ ['*', '/'], by simp [afterEnd], iff_of_false (by simp) fun hno => ?_⟩
        exact (List.isChain_cons_cons.1 hno).1 ⟨rfl, rfl⟩
    · obtain ⟨stray, hstray, hempty⟩ := ih
      refine ⟨stray, (afterEnd_cons hend).trans hstray, hempty.trans ?_⟩
      show NoEnd (a ++ ['*']) ↔ NoEnd (c :: (a ++ ['*']))
      have hhead : (a ++ ['*']).head? = (a ++ '*' :: '/' :: b).head? := by cases a <;> rfl
      rw [NoEnd, NoEnd, List.isChain_cons, hhead]
      refine (and_iff_right ?_).symm
      rintro d hd ⟨rfl, rfl⟩
      exact hend ⟨rfl, hd⟩

/-- What follows the end of a comment in a part of it is left with the rest. -/
theorem infix_stray {a b stray s more : List Char}
    (hstray : afterEnd (a ++ '*' :: '/' :: b) = some (stray ++ b)) (hs : s <:+: a)
    (hmore : afterEnd s = some more) : more <:+: stray := by
  obtain ⟨before, rfl⟩ := exists_of_afterEnd hmore
  obtain ⟨x, y, rfl⟩ := hs
  obtain ⟨z, hz, -⟩ := exists_stray (x ++ before) (more ++ y ++ '*' :: '/' :: b)
  have hsame : z ++ more ++ (y ++ ['*', '/']) ++ b = stray ++ b := by
    rw [← Option.some.injEq, ← hstray]
    simpa using hz.symm
  exact ⟨z, y ++ ['*', '/'], List.append_cancel_right hsame⟩

end Source

/-! ## The header -/

namespace Text

/-- Between two texts no comment ends if the first ends without its star or the second begins
without its slash. -/
theorem noEnd_append {a b : List Char} (h : a.getLast? ≠ some '*' ∨ b.head? ≠ some '/') :
    NoEnd (a ++ b) ↔ NoEnd a ∧ NoEnd b := by
  refine List.isChain_append.trans ⟨fun hall => ⟨hall.1, hall.2.1⟩, fun hboth =>
    ⟨hboth.1, hboth.2, ?_⟩⟩
  rintro c hc d hd ⟨rfl, rfl⟩
  exact h.elim (fun hlast => hlast hc) (fun hhead => hhead hd)

theorem toList_joinLines (first : String) (lines : List String) :
    (join "\n" (first :: lines)).toList =
      first.toList ++ lines.flatMap fun line => '\n' :: line.toList := by
  induction lines generalizing first with
  | nil => simp [join_singleton]
  | cons line rest ih =>
    have hbreak : "\n".toList = ['\n'] := rfl
    rw [join_cons_cons, String.toList_append, String.toList_append, ih, hbreak]
    simp

end Text

namespace Layout
open Text

/-- The line of a value in the header, if it has one, after a line feed. -/
def headerLineChars (label : String) (v : Value) : List Char :=
  (headerLine label v).flatMap fun line => '\n' :: line.toList

/-- What every header says, from its second character on. -/
def headerWords : List Char :=
  '*' :: [" * Generated by typegen.", " * Do not edit manually."].flatMap fun line =>
    '\n' :: line.toList

/-- What a header says between the marks that begin and end it. -/
def headerInside (title version : Value) : List Char :=
  headerWords ++ (headerLineChars "" title ++
    (headerLineChars "OpenAPI spec version: " version ++ ['\n', ' ']))

theorem toList_header (title version : Value) :
    (header title version).toList = '/' :: '*' :: (headerInside title version ++ ['*', '/']) := by
  have hfirst : "/**".toList = ['/', '*', '*'] := rfl
  have hlast : " */".toList = [' ', '*', '/'] := rfl
  rw [headerInside, headerWords, header]
  simp [toList_joinLines, hfirst, hlast, headerLineChars]

variable {label : String} {title version v : Value}

theorem headerLineChars_eq : headerLineChars label v =
    if v.isTrue then '\n' :: (" * " ++ label).toList ++ v.plain.toList else [] := by
  unfold headerLineChars headerLine
  split <;> simp

theorem head?_headerLineChars (label : String) (v : Value) (rest : List Char) :
    (headerLineChars label v ++ '\n' :: rest).head? ≠ some '/' := by
  rw [headerLineChars_eq]
  split <;> simp

theorem noEnd_headerLineChars
    (hlabel : NoEnd ('\n' :: (" * " ++ label).toList))
    (hlast : ('\n' :: (" * " ++ label).toList).getLast? ≠ some '*') :
    NoEnd (headerLineChars label v) ↔ (v.isTrue = true → NoEnd v.plain.toList) := by
  rw [headerLineChars_eq]
  split
  · rename_i htrue
    rw [noEnd_append (.inl hlast), and_iff_right hlabel]
    exact (imp_iff_right htrue).symm
  · rename_i hfalse
    exact iff_of_true .nil fun htrue => absurd htrue hfalse

/-- No comment ends in a header but in what it says of the document. -/
theorem noEnd_headerInside : NoEnd (headerInside title version ++ ['*']) ↔
    ∀ v ∈ [title, version].filter Value.isTrue, NoEnd v.plain.toList := by
  have hwords : NoEnd headerWords := by decide
  have htitle : NoEnd (headerLineChars "" title) ↔
      (title.isTrue = true → NoEnd title.plain.toList) :=
    noEnd_headerLineChars (by decide) (by decide)
  have hversion : NoEnd (headerLineChars "OpenAPI spec version: " version) ↔
      (version.isTrue = true → NoEnd version.plain.toList) :=
    noEnd_headerLineChars (by decide) (by decide)
  have hend : NoEnd ['\n', ' ', '*'] := by decide
  have hparts : headerInside title version ++ ['*'] = headerWords ++ (headerLineChars "" title ++
      (headerLineChars "OpenAPI spec version: " version ++ ['\n', ' ', '*'])) := by
    simp [headerInside]
  rw [hparts, noEnd_append (.inl (by decide)), noEnd_append (.inr (head?_headerLineChars _ _ _)),
    noEnd_append (.inr (by decide)), htitle, hversion, and_iff_right hwords, and_iff_left hend]
  simp only [List.mem_filter, List.mem_cons, List.not_mem_nil, or_false, and_imp, forall_eq_or_imp,
    forall_eq]

/-- What a header says of the document is in it. -/
theorem infix_headerInside (hv : v ∈ [title, version].filter Value.isTrue) :
    v.plain.toList <:+: headerInside title version := by
  have hline : ∀ label, v.plain.toList <:+: headerLineChars label v := by
    intro label
    rw [headerLineChars_eq, if_pos (List.mem_filter.1 hv).2]
    exact (List.suffix_append _ _).isInfix
  rw [headerInside]
  rcases List.mem_cons.1 (List.mem_filter.1 hv).1 with rfl | hversion
  · exact (hline "").trans (List.infix_append' ..)
  · obtain rfl := List.mem_singleton.1 hversion
    refine (hline "OpenAPI spec version: ").trans ?_
    exact (List.infix_append' ..).trans (List.suffix_append _ _).isInfix

/-! ## Files -/

theorem declarationText_eq (header : String) (imports : List ImportLine) (d : Declaration) :
    declarationText header imports d = headerText header ++ declarationText "" imports d := by
  simp [declarationText, headerText, String.append_assoc]

theorem indexText_eq (header : String) (names : List String) :
    indexText header names = headerText header ++ indexText "" names := by
  simp [indexText, headerText]

theorem operationsText_eq (header : String) (operations : List Operation) (dirs : Folders) :
    operationsText header operations dirs =
      (operationsText "" operations dirs).map (headerText header ++ ·) := by
  unfold operationsText
  cases operations.mapM operationText with
  | error e => rfl
  | ok texts =>
    show Except.ok _ = Except.ok _
    simp [headerText, String.append_assoc]

end Layout

namespace Bundle

/-- A bundle whose files have no header. -/
def bare (b : Bundle) : Bundle := { b with hasHeader := false }

/-- What a document says of itself in headers: its title and its version, if they count as given. -/
def said (info : Members) : List Value :=
  ((info.field? "title").toList ++ (info.field? "version").toList).filter Value.isTrue

theorem filter_said (info : Members) :
    [(info.field? "title").getD (.text ""), (info.field? "version").getD (.text "")].filter
      Value.isTrue = said info := by
  have hone : ∀ v : Option Value,
      [v.getD (.text "")].filter Value.isTrue = v.toList.filter Value.isTrue := by
    intro v
    cases v <;> rfl
  rw [said, List.filter_append, ← hone, ← hone, ← List.filter_append]
  rfl

/-- The header says what the target says of itself, and without it a run makes the same. -/
theorem make_bare {config : Config} {target : String} {documents : Registry} {b : Bundle}
    (h : make config target documents = .ok b) :
    make { config with header := false } target documents = .ok b.bare ∧
      b.hasHeader = config.header ∧
      ∃ info, information (documents.document target) = .ok info ∧
        [b.title, b.version].filter Value.isTrue = said info := by
  unfold make at h
  obtain ⟨operations, hoperations, h⟩ := Except.bind_eq_ok.1 h
  obtain ⟨own, hown, h⟩ := Except.bind_eq_ok.1 h
  obtain ⟨others, hothers, h⟩ := Except.bind_eq_ok.1 h
  obtain ⟨info, hinfo, h⟩ := Except.bind_eq_ok.1 h
  obtain rfl := by simpa [pure, Except.pure] using h
  refine ⟨?_, rfl, info, hinfo, filter_said info⟩
  exact Except.bind_eq_ok.2 ⟨operations, hoperations, Except.bind_eq_ok.2 ⟨own, hown,
    Except.bind_eq_ok.2 ⟨others, hothers, Except.bind_eq_ok.2 ⟨info, hinfo, rfl⟩⟩⟩⟩

end Bundle

namespace Emission

/-- A file after the header of a bundle. -/
def headed (b : Bundle) (f : OutputFile) : OutputFile :=
  { f with text := Layout.headerText (header b) ++ f.text }

theorem declarationFile_bare (b : Bundle) (output folder : String) (d : Declaration) :
    declarationFile b output folder d = headed b (declarationFile b.bare output folder d) := by
  show OutputFile.mk _ (Layout.declarationText (header b) _ d) = OutputFile.mk _ _
  rw [Layout.declarationText_eq]
  rfl

theorem volumeFiles_bare (b : Bundle) (output : String) (v : Volume) :
    volumeFiles b output v = (volumeFiles b.bare output v).map (headed b) := by
  have hindex : OutputFile.mk (modelPath output v.folder "index")
      (Layout.indexText (header b) (v.declarations.map (·.name))) =
      headed b ⟨modelPath output v.folder "index",
        Layout.indexText "" (v.declarations.map (·.name))⟩ := by
    rw [Layout.indexText_eq]
    rfl
  have hdeclarations : v.declarations.map (declarationFile b output v.folder) =
      (v.declarations.map (declarationFile b.bare output v.folder)).map (headed b) := by
    rw [List.map_map]
    exact List.map_congr_left fun d _ => declarationFile_bare b output v.folder d
  unfold volumeFiles
  dsimp only
  rw [List.map_append, hdeclarations, hindex]
  split <;> rfl

/-- The files of declarations are what they are without a header, after it. -/
theorem modelFiles_bare (b : Bundle) (output : String) :
    modelFiles b output = (modelFiles b.bare output).map (headed b) := by
  unfold modelFiles
  rw [List.map_flatMap]
  exact List.flatMap_congr fun v _ => volumeFiles_bare b output v

/-- So is the file of operations, and it can be made with a header just if it can be without. -/
theorem operationsFile_bare (b : Bundle) (output : String) :
    operationsFile b output = (operationsFile b.bare output).map (List.map (headed b)) := by
  unfold operationsFile
  show (if b.operations.isEmpty then _ else _) =
    Except.map _ (if b.operations.isEmpty then _ else _)
  split
  · rfl
  · rw [Layout.operationsText_eq]
    show _ = Except.map _ (Layout.operationsText "" b.operations b.folders >>= _)
    cases Layout.operationsText "" b.operations b.folders <;> rfl

/-- A file of a bundle: of a declaration, of a folder, or of the operations. -/
def IsFile (b : Bundle) (output : String) (f : OutputFile) : Prop :=
  f ∈ modelFiles b output ∨ ∃ files, operationsFile b output = .ok files ∧ f ∈ files

theorem IsFile.exists_bare {b : Bundle} {output : String} {f : OutputFile}
    (h : IsFile b output f) : ∃ g, IsFile b.bare output g ∧ f = headed b g := by
  rcases h with h | ⟨files, hfiles, h⟩
  · rw [modelFiles_bare] at h
    obtain ⟨g, hg, rfl⟩ := List.mem_map.1 h
    exact ⟨g, .inl hg, rfl⟩
  · rw [operationsFile_bare] at hfiles
    cases hbare : operationsFile b.bare output with
    | error e =>
      rw [hbare] at hfiles
      cases hfiles
    | ok gs =>
      rw [hbare] at hfiles
      obtain rfl := Except.ok.inj hfiles
      obtain ⟨g, hg, rfl⟩ := List.mem_map.1 h
      exact ⟨g, .inr ⟨gs, hbare, hg⟩, rfl⟩

theorem text_headed {b : Bundle} (hheader : b.hasHeader = true) (f : OutputFile) :
    (headed b f).text = header b ++ "\n\n" ++ f.text := by
  have hne : header b ≠ "" := by
    intro hempty
    have hchars := Layout.toList_header b.title b.version
    rw [header, if_pos hheader] at hempty
    rw [hempty] at hchars
    cases hchars
  show Layout.headerText (header b) ++ f.text = _
  rw [Layout.headerText, if_neg hne]

end Emission

/-- Each file of a run with a header begins with a comment. After it comes what the file is without
a header, just where neither the title nor the version of the document, if they count as given, has
the mark that ends a comment. Else the comment ends at the first such mark, and there is more before
that: all that either text says after its first mark is read as source. -/
theorem file_headers {config : Config} {target : String} {documents : Registry} {b : Bundle}
    (h : Bundle.make config target documents = .ok b) (hheader : config.header = true)
    (output : String) :
    ∃ info bare, Bundle.information (documents.document target) = .ok info ∧
      Bundle.make { config with header := false } target documents = .ok bare ∧
      ∀ f, Emission.IsFile b output f → ∃ body stray,
        Emission.IsFile bare output ⟨f.path, body⟩ ∧
        f.text = Emission.header b ++ "\n\n" ++ body ∧
        Source.afterComment f.text.toList = some (stray ++ "\n\n".toList ++ body.toList) ∧
        (stray = [] ↔ ∀ v ∈ Bundle.said info, Text.NoEnd v.plain.toList) ∧
        ∀ v ∈ Bundle.said info, ∀ more, Source.afterEnd v.plain.toList = some more →
          more <:+: stray := by
  obtain ⟨hbare, hhas, info, hinfo, hsaid⟩ := Bundle.make_bare h
  refine ⟨info, b.bare, hinfo, hbare, fun f hf => ?_⟩
  obtain ⟨g, hg, rfl⟩ := hf.exists_bare
  have htext := Emission.text_headed (hhas.trans hheader) g
  have hchars : (Emission.headed b g).text.toList =
      '/' :: '*' :: (Layout.headerInside b.title b.version ++
        '*' :: '/' :: ("\n\n".toList ++ g.text.toList)) := by
    rw [htext, Emission.header, if_pos (hhas.trans hheader)]
    simp [Layout.toList_header]
  obtain ⟨stray, hstray, hempty⟩ := Source.exists_stray
    (Layout.headerInside b.title b.version) ("\n\n".toList ++ g.text.toList)
  refine ⟨g.text, stray, hg, htext, ?_, ?_, ?_⟩
  · rw [hchars, Source.afterComment, hstray, List.append_assoc]
  · rw [hempty, Layout.noEnd_headerInside, hsaid]
  · intro v hv more hmore
    rw [← hsaid] at hv
    exact Source.infix_stray hstray (Layout.infix_headerInside hv) hmore

/-- A document with a title, a version and one schema. -/
def titledDocument (title : String) : Value :=
  .map [(.text "info", .map [(.text "title", .text title), (.text "version", .text "1.0.0")]),
    (.text "components", .map [(.text "schemas", .map [
      (.text "Pet", .map [(.text "type", .text "string")])])])]

theorem file_headers_pets :
    ∃ b f, ∃ body : String,
      Bundle.make apiConfig "/api.json" [("/api.json", titledDocument "Pets * /")] =
        .ok b ∧ apiConfig.header = true ∧ Emission.IsFile b "out" f ∧
      f.path = "out/model/Pet.ts" ∧
      Source.afterComment f.text.toList = some ("\n\n".toList ++ body.toList) := by
  let documents : Registry := [("/api.json", titledDocument "Pets * /")]
  obtain ⟨b, hb, hpath⟩ := Except.exists_of_any (x := Bundle.make apiConfig "/api.json" documents)
    (p := fun b => decide ("out/model/Pet.ts" ∈
      (Emission.modelFiles b "out").map OutputFile.path)) (by decide +kernel)
  obtain ⟨f, hf, hpath⟩ := List.mem_map.1 (of_decide_eq_true hpath)
  obtain ⟨said, hsaid, hsafe⟩ := Except.exists_of_any
    (x := Bundle.information (documents.document "/api.json"))
    (p := fun info => (Bundle.said info).all fun v => decide (Text.NoEnd v.plain.toList))
    (by decide +kernel)
  obtain ⟨info, bare, hinfo, -, hfiles⟩ := file_headers hb rfl "out"
  obtain rfl : said = info := Except.ok.inj (hsaid.symm.trans hinfo)
  obtain ⟨body, stray, -, -, hafter, hempty, -⟩ := hfiles f (.inl hf)
  obtain rfl := hempty.2 fun v hv => of_decide_eq_true (List.all_eq_true.1 hsafe v hv)
  exact ⟨b, f, body, hb, rfl, .inl hf, hpath, hafter⟩

/-- The file of the schema of a document whose title ends the comment. -/
def endedText : String :=
  "/**\n * Generated by typegen.\n * Do not edit manually.\n" ++
    " * Pets */ declare const pets: any; /*\n * OpenAPI spec version: 1.0.0\n */\n\n" ++
    "export type Pet = string;\n"

/-- The title ends the header, and what follows in it is a statement. -/
theorem file_headers_ended :
    ∃ b f, Bundle.make apiConfig "/api.json"
        [("/api.json", titledDocument "Pets */ declare const pets: any; /*")] = .ok b ∧
      f ∈ Emission.modelFiles b "out" ∧ f.text = endedText ∧
      Source.afterComment f.text.toList = some (" declare const pets: any; /*\n".toList ++
        (" * OpenAPI spec version: 1.0.0\n */\n\nexport type Pet = string;\n").toList) := by
  obtain ⟨b, hb, htext⟩ := Except.exists_of_any
    (x := Bundle.make apiConfig "/api.json"
      [("/api.json", titledDocument "Pets */ declare const pets: any; /*")])
    (p := fun b => decide (endedText ∈ (Emission.modelFiles b "out").map OutputFile.text))
    (by decide +kernel)
  obtain ⟨f, hf, htext⟩ := List.mem_map.1 (of_decide_eq_true htext)
  refine ⟨b, f, hb, hf, htext, ?_⟩
  rw [htext]
  decide +kernel

end ApiTypes

import ApiTypes.Proofs.Identifiers
import ApiTypes.Proofs.MadeNames
import ApiTypes.Proofs.OperationNames

/-!
# Which declarations and operations are named by identifiers

* `Name.grown_inherited` : what is named in a schema is made of the name that it is read under;
* `Bundle.Stem` : the text and the ending whose name a declaration is made of;
* `declared_identifiers` : with the default suffixes, the names of declarations and operations that
  are identifiers.
-/

namespace ApiTypes

/-- What is named below a name is made of that. -/
theorem Name.grown_inherited (roots : List String) :
    Inherited fun n => ∃ root ∈ roots, Grown root n where
  child h := by
    rintro ⟨root, hroot, hgrown⟩
    refine ⟨root, hroot, ?_⟩
    obtain ⟨child, -, rfl | rfl⟩ := Resolve.childName_ok h
    · exact hgrown.pascal.append child
    · exact (hgrown.pascal.append child).append _
  pascal := fun ⟨root, hroot, hgrown⟩ => ⟨root, hroot, hgrown.pascal⟩
  word := fun _ ⟨root, hroot, hgrown⟩ => ⟨root, hroot, hgrown.append _⟩
  number := fun _ ⟨root, hroot, hgrown⟩ => ⟨root, hroot, hgrown.append _⟩

/-! ## Declarations of entries -/

/-- The text that an entry is named by; a value that is empty is none. -/
def Components.Entry.source (e : Entry) : String := e.name.text?.getD ""

theorem Components.Entry.pascal_source {e : Entry} {base : String}
    (h : Form.pascal e.name = .ok base) : base = Name.pascal e.source := by
  unfold Form.pascal at h
  unfold source
  split at h
  · rename_i s hs
    rw [hs]
    exact (Except.ok.inj h).symm
  · rename_i hs
    rw [hs]
    split at h
    · simp [Form.fail] at h
    · exact (Except.ok.inj h).symm

/-- What is declared for an entry is named by its text and its suffix, or by what is made of
these. -/
theorem Definition.grown_ofEntry {ctx : Context} {e : Components.Entry} {ds : List Declaration}
    (h : (ofEntry ctx e).outcome = .ok ds) : ∃ ending, e.suffix = .text ending ∧ ∀ d ∈ ds,
      Name.Grown (Name.pascal e.source ++ ending) d.name ∧
        (Name.pascal e.source ++ ending = "" → d.name = "") := by
  obtain ⟨base, name, hbase, hsuffixed, -⟩ := ofEntry_ok.1 h
  obtain ⟨ending, hending, rfl⟩ := Resolve.suffixed_ok hsuffixed
  have hdeclared : e.declaredName = .ok (base ++ ending) := by
    unfold Components.Entry.declaredName
    rw [hbase]
    exact hsuffixed
  rw [← Components.Entry.pascal_source hbase]
  refine ⟨ending, hending, fun d hd => ?_⟩
  have hnames := (ofEntry_names h d.name).1 ⟨d, hd, rfl⟩
  generalize d.name = n at hnames
  cases hnames with
  | own hown =>
    obtain rfl := Except.ok.inj (hown.symm.trans hdeclared)
    exact ⟨.root, id⟩
  | below hown hvalue hd =>
    obtain rfl := Except.ok.inj (hown.symm.trans hdeclared)
    -- Below an empty name nothing is named.
    obtain ⟨root, hroot, hgrown⟩ := Resolve.inherited_value (Name.grown_inherited _) hvalue
      (fun p hp => ⟨p, Option.mem_toList.2 hp, .root⟩) _ hd
    obtain ⟨hname, hne⟩ := Option.filter_eq_some_iff.1 (Option.mem_toList.1 hroot)
    obtain rfl := Option.some.inj hname
    exact ⟨hgrown, fun hempty => absurd hempty (of_decide_eq_true hne)⟩

/-! ## Declarations of operations -/

namespace Operation

variable {ctx : Context}

/-- What is declared for an operation is named by its type name and the word for what it is, or by
what is made of these. -/
theorem grown_make {method : String} {path : Atom} {pathItem : Members} {operation : Value}
    {op : Operation} (h : (make ctx method path pathItem operation).outcome = .ok op) :
    ∀ d ∈ op.declarations, ∃ part ∈ parts, Name.Grown (op.typeName ++ part) d.name := by
  have hgrown := inherited_make (Name.grown_inherited (parts.map (op.typeName ++ ·))) h
    fun part hpart => ⟨_, List.mem_map_of_mem hpart, .root⟩
  simpa using hgrown

/-! ## Names of operations -/

/-- The id of an operation, if it is a text and counts. -/
def Written.id? (w : Written) : Option String :=
  (((w.operation.members?).bind fun ms => Members.field? ms "operationId").filter
    Value.isTrue).bind Value.text?

/-- A name that is made of a method and a path begins well. -/
theorem beginsWord_method {method : String} (hmethod : method ∈ methods) (more : List Char) :
    Name.beginsWord (String.ofList (Text.lowerAll method.toList ++ more)) = true := by
  have hm := Name.isMethod_of_mem hmethod
  obtain ⟨c, rest, hcons, hc⟩ := hm.exists_cons
  have hletter : Name.isLetter c = true :=
    Name.isLetter_of_isLower (Name.letter_cases hc).1 hc
  rw [Name.lowerAll_letters hm.letters, hcons, Name.beginsWord, String.toList_ofList,
    List.cons_append, Name.firstWordChar?_letter hletter, Bool.or_true]

/-- The name of an operation and its type name are identifiers, if they have no signs, where the
operation has no id or the id begins well; else they are none. -/
theorem isValid_name {w : Written} (hmethod : w.method ∈ methods) {op : Operation}
    (hop : (make ctx w.method w.path w.pathItem w.operation).outcome = .ok op) :
    (Name.isValid op.name = true ↔
      (∀ id ∈ w.id?, Name.beginsWord id = true) ∧ Name.NoSign op.name) ∧
    (Name.isValid op.typeName = true ↔
      (∀ id ∈ w.id?, Name.beginsWord id = true) ∧ Name.NoSign op.typeName) := by
  obtain ⟨ms, hms, s, -⟩ := make_ok hop
  have hsource : ∃ source, op.name = Name.camel source ∧
      (Name.beginsWord source = true ↔ ∀ id ∈ w.id?, Name.beginsWord id = true) := by
    have hname := s.name_ok
    have hid :
        w.id? = ((Members.field? ms "operationId").filter Value.isTrue).bind Value.text? := by
      rw [Written.id?, hms]
      rfl
    rw [hid]
    unfold nameOf at hname
    split at hname
    · rename_i id hsome
      obtain ⟨text, htext, hname⟩ := Except.bind_eq_ok.1 hname
      rw [hsome, Form.text_of_ok htext]
      refine ⟨text, (Except.ok.inj hname).symm, ?_⟩
      have hid : (some (Value.text text)).bind Value.text? = some text := rfl
      simp [hid]
    · rename_i hnone
      rw [hnone]
      split at hname
      · rename_i path _
        refine ⟨_, (Except.ok.inj hname).symm, iff_of_true (beginsWord_method hmethod _) ?_⟩
        simp
      · simp [Form.fail] at hname
  obtain ⟨source, hname, hbegins⟩ := hsource
  rw [typeName, hname, ← hbegins]
  exact Name.isValid_camel source

end Operation

/-! ## All that a run declares -/

theorem Config.suffixOf_mem {config : Config} (h : config.suffixes = defaultSuffixes)
    (componentType : String) : config.suffixOf componentType ∈ ["Response", "Body", ""] := by
  unfold suffixOf
  rw [h, defaultSuffixes, Keyed.get?]
  split_ifs
  · decide
  · rw [Keyed.get?]
    split_ifs
    · decide
    · exact (by decide : "" ∈ ["Response", "Body", ""])

namespace Bundle

/-- The text and the ending whose name a declaration has, or a name made of it: the key and the
suffix of an entry of its document, or the name of an operation and the word for a part of it. -/
inductive Stem (config : Config) (documents : Registry) (b : Bundle) (v : Volume)
    (d : Declaration) : String → String → Prop
  | entry {es : List Components.Entry} {e : Components.Entry} {ending : String}
      {ds : List Declaration}
      (hes : Components.entries (contextOf config documents v.document) = .ok es) (he : e ∈ es)
      (hending : e.suffix = .text ending)
      (hds : (Definition.ofEntry (contextOf config documents v.document) e).outcome = .ok ds)
      (hd : d ∈ ds) : Stem config documents b v d e.source ending
  | operation {op : Operation} {part : String} (htarget : v.document = b.target)
      (hop : op ∈ b.operations) (hd : d ∈ op.declarations) (hpart : part ∈ Operation.parts) :
      Stem config documents b v d op.name part

end Bundle

namespace Bundle

variable {config : Config} {target : String} {documents : Registry} {b : Bundle}

/-- Every declaration stems from an entry or an operation. -/
theorem exists_stem (h : make config target documents = .ok b) {v : Volume} (hv : v ∈ b.volumes)
    {d : Declaration} (hd : d ∈ v.declarations) :
    ∃ source ending, b.Stem config documents v d source ending := by
  obtain ⟨ds, hds, hfirst⟩ := volume_ok h hv
  rw [hfirst] at hd
  rcases List.mem_append.1 (firstOfName_subset _ _ hd) with hd | hd
  · obtain ⟨es, results, hes, hresults, rfl⟩ := Definition.ofDocument_ok.1 hds
    obtain ⟨own, hown, hd⟩ := List.mem_flatten.1 hd
    obtain ⟨e, he, hentry⟩ := exists_left_of_forall₂ hresults hown
    obtain ⟨ending, hending, -⟩ := Definition.grown_ofEntry hentry
    exact ⟨_, _, .entry hes he hending hentry hd⟩
  · split at hd
    · rename_i htarget
      obtain ⟨op, hop, hd⟩ := List.mem_flatMap.1 hd
      exact ⟨_, _, .operation htarget hop hd (List.mem_cons_self ..)⟩
    · cases hd

/-- The endings of names begin well. -/
theorem beginsWell_ending {ending : String}
    (h : ending ∈ ["Response", "Body", ""] ∨ ending ∈ Operation.parts) (hne : ending ≠ "") :
    Name.beginsWell ending.toList = true := by
  have hall : ∀ s ∈ ["Response", "Body", ""] ++ Operation.parts, s ≠ "" →
      Name.beginsWell s.toList = true := by decide
  exact hall ending (List.mem_append.2 h) hne

/-- What is declared for a text and an ending is an identifier, if it has no sign, where these begin
well, and none where they do not. -/
theorem isValid_stem (h : make config target documents = .ok b)
    (hsuffixes : config.suffixes = Config.defaultSuffixes) {v : Volume} (hv : v ∈ b.volumes)
    {d : Declaration} (hd : d ∈ v.declarations) {source ending : String}
    (hstem : b.Stem config documents v d source ending) :
    Name.isValid d.name = true ↔ (Name.beginsWord source = true ∨
      (Name.pascal source = "" ∧ ending ≠ "")) ∧ Name.NoSign d.name := by
  have hsuffix : ∀ componentType,
      Text.Over (Name.isNameChar · = true) (config.suffixOf componentType) := by
    intro componentType
    have hall : ∀ s ∈ ["Response", "Body", ""], s.toList.all Name.isNameChar = true := by decide
    exact List.all_eq_true.1 (hall _ (config.suffixOf_mem hsuffixes componentType))
  have hchars : Text.Over (Name.isNameChar · = true) d.name :=
    made_names (.ofOver fun _ => Name.isNameChar_of_declarable) h hsuffix v hv d hd
  cases hstem with
  | @entry es e ending ds hes he hending hds hd =>
    obtain ⟨own, hown, hnames⟩ := Definition.grown_ofEntry hds
    obtain rfl : own = ending := by simpa [Value.text] using hown.symm.trans hending
    have hmem : own ∈ ["Response", "Body", ""] := by
      rcases Components.suffix_of_entries hes e he with hnone | ⟨componentType, hforce⟩
      · obtain rfl : own = "" := by simpa [Value.text] using hown.symm.trans hnone
        decide
      · rw [Config.suffixFor_overrides config rfl, hown] at hforce
        obtain rfl : config.suffixOf componentType = own := by simpa [Value.text] using hforce
        exact config.suffixOf_mem hsuffixes componentType
    obtain ⟨hgrown, hempty⟩ := hnames d hd
    exact Name.isValid_grown (beginsWell_ending (.inl hmem)) hchars hgrown hempty
  | @operation op _ htarget hop hd hpart =>
    obtain ⟨-, -, htargets, -, hoperations, -⟩ := make_ok h
    obtain ⟨ws, -, hmade⟩ := Operation.ofTarget_ok.1 hoperations
    obtain ⟨w, -, hmake⟩ := exists_left_of_forall₂ hmade hop
    obtain ⟨own, hown, hgrown⟩ := Operation.grown_make hmake d hd
    have hne : ∀ s ∈ Operation.parts, s ≠ "" := by decide
    have hempty : Name.pascal op.name ++ own = "" → d.name = "" := by
      intro h
      exact absurd (String.append_eq_empty_iff.1 h).2 (hne own hown)
    rw [Name.isValid_grown (beginsWell_ending (.inr hown)) hchars hgrown hempty]
    simp [hne own hown, hne ending hpart]

end Bundle

/-- With the default suffixes, each declaration has the name of the key of an entry, or of an
operation, or a name made of these. It is an identifier just when that key or name begins well (or
has no words at all, and a suffix or the word for a part of an operation stands after it) and there
is no sign in it. The names of operations and of their types are such just when they have no signs
and the operation has no id or an id that begins well. -/
theorem declared_identifiers {config : Config} {target : String} {documents : Registry} {b : Bundle}
    (h : Bundle.make config target documents = .ok b)
    (hsuffixes : config.suffixes = Config.defaultSuffixes) :
    (∀ v ∈ b.volumes, ∀ d ∈ v.declarations,
      (∃ source ending, b.Stem config documents v d source ending) ∧
      ∀ source ending, b.Stem config documents v d source ending →
        (Name.isValid d.name = true ↔ (Name.beginsWord source = true ∨
          (Name.pascal source = "" ∧ ending ≠ "")) ∧ Name.NoSign d.name)) ∧
    ∃ ws, Operation.written (Bundle.contextOf config documents target) = .ok ws ∧
      List.Forall₂ (fun w op =>
        (Name.isValid op.name = true ↔
          (∀ id ∈ Operation.Written.id? w, Name.beginsWord id = true) ∧ Name.NoSign op.name) ∧
        (Name.isValid op.typeName = true ↔
          (∀ id ∈ Operation.Written.id? w, Name.beginsWord id = true) ∧ Name.NoSign op.typeName))
        ws b.operations := by
  refine ⟨fun v hv d hd => ⟨Bundle.exists_stem h hv hd, fun source ending hstem =>
    Bundle.isValid_stem h hsuffixes hv hd hstem⟩, ?_⟩
  obtain ⟨-, -, -, -, hoperations, -⟩ := Bundle.make_ok h
  obtain ⟨ws, hws, hmade⟩ := Operation.ofTarget_ok.1 hoperations
  have hall := (List.forall₂_and_left _ _).2 ⟨fun w hw => Operation.method_of_written hws hw, hmade⟩
  exact ⟨ws, hws, hall.imp fun w op hop => Operation.isValid_name hop.1 hop.2⟩

/-- A document with a schema in a schema, and an operation with an id. -/
def namedDocument : Value :=
  let text : Value := .map [(.text "type", .text "string")]
  let owner : Value := .map [(.text "properties", .map [(.text "full-name", text)])]
  let listPets : Value := .map [(.text "operationId", .text "list-pets"),
    (.text "parameters", .list [.map [(.text "name", .text "limit"), (.text "in", .text "query")]]),
    (.text "responses", .map [])]
  .map [
    (.text "components", .map [(.text "schemas", .map [
      (.text "pet", .map [(.text "properties", .map [(.text "home_owner", owner)])])])]),
    (.text "paths", .map [(.text "/pets", .map [(.text "get", listPets)])])]

theorem declared_identifiers_named :
    ∃ b, Bundle.make apiConfig "/api.json" [("/api.json", namedDocument)] = .ok b ∧
      (b.operations.map fun op => (op.name, op.typeName)) = [("listPets", "ListPets")] ∧
      ∃ v ∈ b.volumes, v.declarations.map (·.name) = ["PetHomeOwner", "Pet", "ListPetsParams"] ∧
        ∀ d ∈ v.declarations, ∃ source ending,
          b.Stem apiConfig [("/api.json", namedDocument)] v d source ending ∧
            (Name.beginsWord source = true ∨ (Name.pascal source = "" ∧ ending ≠ "")) := by
  obtain ⟨b, hb, hmade⟩ := Except.exists_of_any
    (x := Bundle.make apiConfig "/api.json" [("/api.json", namedDocument)])
    (p := fun b => decide (
      (b.operations.map fun op => (op.name, op.typeName)) = [("listPets", "ListPets")] ∧
      ∃ v ∈ b.volumes, v.declarations.map (·.name) = ["PetHomeOwner", "Pet", "ListPetsParams"] ∧
        ∀ d ∈ v.declarations, Name.isValid d.name = true)) (by decide +kernel)
  obtain ⟨hoperations, v, hv, hnames, hvalid⟩ := of_decide_eq_true hmade
  refine ⟨b, hb, hoperations, v, hv, hnames, fun d hd => ?_⟩
  obtain ⟨⟨source, ending, hstem⟩, hiff⟩ := (declared_identifiers hb rfl).1 v hv d hd
  exact ⟨source, ending, hstem, ((hiff source ending hstem).1 (hvalid d hd)).1⟩

/-- A document with schemas whose keys begin with a digit, have no words, and have a sign. -/
def oddDocument : Value :=
  let text : Value := .map [(.text "type", .text "string")]
  .map [(.text "components", .map [(.text "schemas", .map [
    (.text "404", text), (.text "!!!", text), (.text "a×b", text)])])]

/-- What is declared for them has no identifiers for names. -/
theorem declared_identifiers_odd :
    ∃ b, Bundle.make apiConfig "/api.json" [("/api.json", oddDocument)] = .ok b ∧
      ∃ v ∈ b.volumes, v.declarations.map (·.name) = ["404", "", "A×b"] ∧
        ∀ d ∈ v.declarations, Name.isValid d.name = false := by
  obtain ⟨b, hb, hnames⟩ := Except.exists_of_any
    (x := Bundle.make apiConfig "/api.json" [("/api.json", oddDocument)])
    (p := fun b => decide (∃ v ∈ b.volumes, v.declarations.map (·.name) = ["404", "", "A×b"] ∧
      ∀ d ∈ v.declarations, Name.isValid d.name = false)) (by decide +kernel)
  exact ⟨b, hb, of_decide_eq_true hnames⟩

end ApiTypes

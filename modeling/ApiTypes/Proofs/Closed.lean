import ApiTypes.Proofs.Made
import ApiTypes.Proofs.Scope

/-!
# Nothing is imported that is not declared

* `Resolved.Closed`, `Operation.Closed`, `Bundle.Closed` : what is imported from beside is declared
  there, and what is used is imported;
* `Resolve.soundLaws` : each way to make a type keeps this; `Resolve.slot_closed` : every type has
  it;
* `Definition.ofEntry_closed`, `Operation.make_closed`, `Bundle.make_closed` : so have the
  declarations of an entry, an operation, and all that a run declares;
* `scopes_closed` : all of these together.
-/

namespace ApiTypes

/-- A type whose declarations stand together, with the imports that it needs. -/
structure Resolved.Closed (r : Resolved) : Prop where
  declarations : ScopeClosed r.declarations
  declared : DeclaredIn r.declarations r.imports
  imported : Imported r.imports r.type.names

theorem Resolved.closed_plain {t : TypeExpr} (ht : t.names = []) (kind : String) :
    (Resolved.plain t kind).Closed where
  declarations := .nil
  declared := declaredIn_nil _
  imported n hn := by
    rw [show (Resolved.plain t kind).type = t from rfl, ht] at hn
    cases hn

namespace Resolve

/-! ## Each way to make a type -/

theorem closed_finish {s : Schema} {r : Resolved} (h : r.Closed) : (finish s r).Closed := by
  have hnull : (r.withNull).Closed := by
    unfold Resolved.withNull
    split
    · exact ⟨h.declarations, h.declared, by simpa [TypeExpr.names] using h.imported⟩
    · exact h
  have hof : (r.ofSchema s.raw).Closed := by
    unfold Resolved.ofSchema
    split
    · exact ⟨hnull.declarations, hnull.declared, hnull.imported⟩
    · exact ⟨h.declarations, h.declared, h.imported⟩
  unfold finish
  split
  · exact h
  · exact hof

theorem closed_declared {r : Resolved} (h : r.Closed) (name : String) {model : Model}
    (hmodel : ∀ n ∈ model.names, n = name ∨ n ∈ r.type.names) (kind : String) (isRef : Bool) :
    (declared name model kind isRef r).Closed where
  declarations := by
    refine h.declarations.concat h.declared fun n hn => ?_
    rcases hmodel n hn with rfl | hn
    · exact Or.inl rfl
    · exact Or.inr (h.imported n hn)
  declared i hi _ := by
    obtain rfl := List.mem_singleton.1 hi
    exact ⟨_, List.mem_append_right _ (List.mem_singleton_self _), rfl⟩
  imported n hn := by
    obtain rfl : n = name := by simpa [declared, TypeExpr.names] using hn
    exact ⟨.here n, List.mem_singleton_self _, rfl⟩

theorem closed_hoist {r : Resolved} (h : r.Closed) (name : Option String) (combined : Bool) :
    (hoist name combined r).Closed := by
  unfold hoist
  cases name with
  | none => exact h
  | some n =>
    dsimp only
    split
    · refine closed_declared h n (fun m hm => Or.inr ?_) _ _
      split at hm
      · exact hm
      · exact hm
    · split
      · refine closed_declared h n (fun m hm => Or.inl ?_) _ _
        simpa [Model.names] using hm
      · exact h

/-! ## Several types -/

section Several
variable {types : List Resolved} (h : ∀ r ∈ types, r.Closed)

theorem imports_subset {r : Resolved} (hr : r ∈ types) : r.imports ⊆ importsOf types :=
  fun _ hi => List.mem_flatMap.2 ⟨r, hr, hi⟩

theorem declarations_subset {r : Resolved} (hr : r ∈ types) :
    r.declarations ⊆ declarationsOf types :=
  fun _ hd => List.mem_flatMap.2 ⟨r, hr, hd⟩

include h

theorem scopeClosed_declarationsOf : ScopeClosed (declarationsOf types) where
  declared d hd := by
    obtain ⟨r, hr, hdr⟩ := List.mem_flatMap.1 hd
    exact ((h r hr).declarations.declared d hdr).mono (declarations_subset hr)
  imported d hd := by
    obtain ⟨r, hr, hdr⟩ := List.mem_flatMap.1 hd
    exact (h r hr).declarations.imported d hdr

theorem declaredIn_importsOf : DeclaredIn (declarationsOf types) (importsOf types) := by
  intro i hi hhere
  obtain ⟨r, hr, hir⟩ := List.mem_flatMap.1 hi
  exact ((h r hr).declared.mono (declarations_subset hr)) i hir hhere

/-- A type that uses only what some closed types use is closed with all that they need. -/
theorem closed_of_types {t : TypeExpr} (ht : ∀ n ∈ t.names, ∃ r ∈ types, n ∈ r.type.names)
    (kind : String) (raw : Members) :
    Resolved.Closed { Resolved.plain t kind with
      imports := importsOf types, declarations := declarationsOf types, raw } where
  declarations := scopeClosed_declarationsOf h
  declared := declaredIn_importsOf h
  imported n hn := by
    obtain ⟨r, hr, hnr⟩ := ht n hn
    exact ((h r hr).imported.mono (imports_subset hr)) n hnr

end Several

/-- The members of an object type have the types that are given for them. -/
theorem mem_membersOf {owner : Members} {properties : List (Atom × Schema)}
    {types : List Resolved} {members : List (MemberHead × TypeExpr)}
    (h : membersOf owner properties types = .ok members) {m : MemberHead × TypeExpr}
    (hm : m ∈ members) : ∃ r ∈ types, m.2 = r.type := by
  induction properties generalizing types members with
  | nil =>
    obtain rfl : [] = members := by simpa [membersOf] using h
    cases hm
  | cons p properties ih =>
    obtain ⟨key, s⟩ := p
    cases types with
    | nil =>
      obtain rfl : [] = members := by simpa [membersOf] using h
      cases hm
    | cons r types =>
      rw [membersOf] at h
      obtain ⟨text, -, h⟩ := Except.bind_eq_ok.1 h
      obtain ⟨rest, hrest, h⟩ := Except.bind_eq_ok.1 h
      obtain rfl : (memberHead owner text s.raw, r.type) :: rest = members := by
        simpa [pure, Except.pure] using h
      rcases List.mem_cons.1 hm with rfl | hm
      · exact ⟨r, List.mem_cons_self .., rfl⟩
      · obtain ⟨q, hq, hmq⟩ := ih hrest hm
        exact ⟨q, List.mem_cons_of_mem _ hq, hmq⟩

theorem closed_objectOf {owner : Members} {properties : List (Atom × Schema)}
    {types : List Resolved} {r : Resolved} (h : ∀ t ∈ types, t.Closed)
    (hr : objectOf owner properties types = .ok r) : r.Closed := by
  obtain ⟨members, hmembers, hr⟩ := Except.bind_eq_ok.1 hr
  obtain rfl := by simpa [pure, Except.pure] using hr
  refine closed_of_types h (fun n hn => ?_) "object" owner
  rw [TypeExpr.names] at hn
  obtain ⟨m, hm, hnm⟩ := TypeExpr.mem_namesOfMembers.1 hn
  obtain ⟨t, ht, hmt⟩ := mem_membersOf hmembers hm
  exact ⟨t, ht, hmt ▸ hnm⟩

/-- Where an enum is spread, its name is one that the part uses. -/
theorem names_enumPart {r : Resolved} (h : RefNamed r) {n : String}
    (hn : n ∈ (enumPart r).names) : n ∈ r.type.names := by
  unfold enumPart at hn
  split at hn
  · rename_i href
    obtain ⟨m, hm⟩ := h href
    rw [hm] at hn ⊢
    exact hn
  · cases hn

theorem closed_mergedEnum {types : List Resolved} (h : ∀ r ∈ types, r.Closed)
    (hnamed : ∀ r ∈ types, RefNamed r) (name : String) : (mergedEnum name types).Closed where
  declarations := by
    refine (scopeClosed_declarationsOf h).concat (declaredIn_importsOf h) fun n hn => Or.inr ?_
    obtain ⟨part, hpart, hn⟩ := List.mem_flatMap.1 hn
    obtain ⟨r, hr, rfl⟩ := List.mem_map.1 hpart
    exact ((h r hr).imported.mono (imports_subset hr)) n (names_enumPart (hnamed r hr) hn)
  declared i hi _ := by
    obtain rfl := List.mem_singleton.1 hi
    exact ⟨_, List.mem_append_right _ (List.mem_singleton_self _), rfl⟩
  imported n hn := by
    obtain rfl : n = Name.pascal name := by
      simpa [mergedEnum, Resolved.plain, TypeExpr.names] using hn
    exact ⟨.here _, List.mem_singleton_self _, rfl⟩

theorem closed_combine {types : List Resolved} (h : ∀ r ∈ types, r.Closed)
    (hnamed : ∀ r ∈ types, RefNamed r) (keyword : Keyword) (name : Option String) :
    (combine keyword name types).Closed := by
  have hjoined : (combine.joined keyword types).Closed := by
    refine closed_of_types h (fun n hn => ?_) "object" []
    rw [TypeExpr.names] at hn
    obtain ⟨t, ht, hn⟩ := TypeExpr.mem_namesOfAll.1 hn
    obtain ⟨r, hr, rfl⟩ := List.mem_map.1 ht
    exact ⟨r, hr, by simpa using hn⟩
  unfold combine
  split
  · exact Resolved.closed_plain rfl _
  · split
    · split
      · exact closed_mergedEnum h hnamed _
      · exact hjoined
    · exact hjoined

/-! ## The types of schemas -/

/-- What holds of each way to make a type: it is closed, and if it is a reference, it is a name. -/
def Sound (r : Resolved) : Prop := r.Closed ∧ RefNamed r

theorem sound_plain {t : TypeExpr} (ht : t.names = []) (kind : String) :
    Sound (Resolved.plain t kind) :=
  ⟨Resolved.closed_plain ht kind, .of_eq_false rfl⟩

theorem Sound.finish {s : Schema} {r : Resolved} (h : Sound r) : Sound (finish s r) := by
  refine ⟨closed_finish h.1, ?_⟩
  unfold Resolve.finish
  split
  · exact h.2
  · exact refNamed_ofSchema _ _

theorem Sound.hoist {r : Resolved} (h : Sound r) (name : Option String) (combined : Bool) :
    Sound (hoist name combined r) :=
  ⟨closed_hoist h.1 name combined, h.2.hoist name combined⟩

theorem Sound.slot (s : Schema) (name : Option String) (combined : Bool) (r : Resolved)
    (h : Sound r) : Sound (Resolve.hoist name combined (Resolve.finish s r)) :=
  h.finish.hoist name combined

theorem soundLaws (ctx : Context) : ShapeLaws ctx fun _ _ => Sound where
  reference raw ref name r h := by
    obtain ⟨info, target, deeper, -, -, rfl⟩ := reference_ok h
    refine ⟨⟨.nil, declaredIn_elsewhere _ _ _, fun n hn => ?_⟩, fun _ => ⟨_, rfl⟩⟩
    exact ⟨_, List.mem_singleton_self _, (List.mem_singleton.1 hn).symm⟩
  primitive raw name := by
    dsimp only [primitive]
    split_ifs <;> exact sound_plain rfl _
  enum raw values name := by
    refine ⟨⟨.nil, declaredIn_nil _, fun n hn => ?_⟩, .of_eq_false rfl⟩
    cases hn
  bare raw name := by
    unfold bare
    refine ⟨⟨.nil, declaredIn_nil _, fun n hn => ?_⟩, .of_eq_false rfl⟩
    simp only [Resolved.plain] at hn
    split at hn
    · cases hn
    · cases hn
  openRecord raw name := ⟨⟨.nil, declaredIn_nil _, fun n hn => absurd hn List.not_mem_nil⟩,
    .of_eq_false rfl⟩
  anyArray raw name := sound_plain rfl _
  array raw items name r h := by
    have hitem := (h.finish (s := items)).hoist (itemName name) false
    refine ⟨⟨hitem.1.declarations, hitem.1.declared, fun n hn => hitem.1.imported n ?_⟩,
      .of_eq_false rfl⟩
    simpa [arrayOf, Resolved.plain, TypeExpr.names] using hn
  record raw values name r h := by
    have hvalues := h.finish (s := values)
    refine ⟨⟨hvalues.1.declarations, hvalues.1.declared, fun n hn => hvalues.1.imported n ?_⟩,
      .of_eq_false rfl⟩
    simpa [recordOf, Resolved.plain, TypeExpr.names] using hn
  object raw properties name names types r _ htypes hr := by
    refine ⟨closed_objectOf (fun t ht => (htypes.forall_mem Sound.slot t ht).1) hr, ?_⟩
    obtain ⟨members, -, hr⟩ := Except.bind_eq_ok.1 hr
    obtain rfl := by simpa [pure, Except.pure] using hr
    exact .of_eq_false rfl
  composition raw keyword schemas name types htypes := by
    have hall := htypes.forall_mem Sound.slot
    refine ⟨closed_combine (fun r hr => (hall r hr).1) (fun r hr => (hall r hr).2) keyword name, ?_⟩
    unfold combine
    split
    · exact .of_eq_false rfl
    · split
      · split
        · exact .of_eq_false rfl
        · exact .of_eq_false rfl
      · exact .of_eq_false rfl

theorem value_closed {ctx : Context} {s : Schema} {name : Option String} {r : Resolved}
    (h : (value ctx s name).outcome = .ok r) : r.Closed := by
  obtain ⟨q, hq, rfl⟩ := value_ok.1 h
  exact closed_finish ((soundLaws ctx).shape s _ q hq).1

theorem slot_closed {ctx : Context} {s : Schema} {name : Option String} {combined : Bool}
    {r : Resolved} (h : (slot ctx s name combined).outcome = .ok r) : r.Closed := by
  obtain ⟨q, hq, rfl⟩ := slot_ok.1 h
  exact closed_hoist (value_closed hq) _ _

end Resolve

/-! ## The declarations of an entry -/

namespace Definition

variable {ctx : Context}

theorem names_model (name : String) (comment : Option Comment) (r : Resolved) {n : String}
    (hn : n ∈ (model name comment r).names) : n = name ∨ n ∈ r.type.names := by
  unfold model at hn
  split_ifs at hn
  · exact Or.inl (List.mem_singleton.1 hn)
  · cases hn
  · exact Or.inr hn
  · exact Or.inr hn

theorem declarations_closed {r : Resolved} (h : r.Closed) (name : String)
    (comment : Option Comment) : ScopeClosed (declarations name comment r) := by
  refine ScopeClosed.gathers ?_ (Declaration.gathers_merge _)
  refine h.declarations.concat h.declared fun n hn => ?_
  rcases names_model name comment r hn with rfl | hn
  · exact Or.inl rfl
  · exact Or.inr (h.imported n hn)

theorem ofEntry_closed {e : Components.Entry} {ds : List Declaration}
    (h : (ofEntry ctx e).outcome = .ok ds) : ScopeClosed ds := by
  obtain ⟨base, name, -, -, h⟩ := ofEntry_ok.1 h
  obtain ⟨r, hr, rfl⟩ := ofSchema_ok.1 h
  exact declarations_closed (Resolve.value_closed hr) _ _

theorem ofDocument_closed {ds : List Declaration} (h : (ofDocument ctx).outcome = .ok ds) :
    ScopeClosed ds := by
  obtain ⟨entries, results, -, hresults, rfl⟩ := ofDocument_ok.1 h
  clear h
  induction hresults with
  | nil => exact .nil
  | cons hentry _ ih => exact (ofEntry_closed hentry).append ih

end Definition

/-! ## The types of an operation -/

namespace Operation

variable {ctx : Context}

/-- The types that an operation is written with. -/
def types (op : Operation) : List TypeExpr :=
  op.pathParams.map Prod.snd ++ op.params.toList ++ op.body.toList ++ op.response.toList

/-- An operation whose declarations stand together, with the imports that its types need. -/
structure Closed (op : Operation) : Prop where
  declarations : ScopeClosed op.declarations
  declared : DeclaredIn op.declarations op.imports
  imported : ∀ t ∈ op.types, Imported op.imports t.names

theorem paramsInterface_closed {name : String} {query : List Parameter} {r : Resolved}
    (h : (paramsInterface ctx name query).outcome = .ok r) : r.Closed := by
  obtain ⟨names, types, members, -, htypes, hmembers, rfl⟩ := paramsInterface_ok h
  have hclosed : ∀ t ∈ types, t.Closed := by
    intro t ht
    obtain ⟨x, -, hx⟩ := exists_left_of_forall₂ htypes ht
    exact Resolve.slot_closed hx
  refine ⟨?_, fun i hi _ => ?_, fun n hn => ?_⟩
  · refine (Resolve.scopeClosed_declarationsOf hclosed).concat
      (Resolve.declaredIn_importsOf hclosed) fun n hn => Or.inr ?_
    obtain ⟨m, hm, hn⟩ := TypeExpr.mem_namesOfMembers.1 hn
    obtain ⟨t, ht, hmt⟩ := mem_paramMembers hmembers hm
    rw [hmt] at hn
    exact ((hclosed t ht).imported.mono (Resolve.imports_subset ht)) n hn
  · obtain rfl := List.mem_singleton.1 hi
    exact ⟨_, List.mem_append_right _ (List.mem_singleton_self _), rfl⟩
  · exact ⟨_, List.mem_singleton_self _, (List.mem_singleton.1 hn).symm⟩

theorem contentOf_closed {name : String} {component : Option Value} {r : Resolved}
    (h : (contentOf ctx name component).outcome = .ok (some r)) : r.Closed := by
  obtain ⟨ms, -, ⟨ref, info, -, -, rfl⟩ | ⟨schema, -, -, hslot⟩⟩ := contentOf_ok h
  · refine ⟨.nil, declaredIn_elsewhere _ _ _, fun n hn => ?_⟩
    exact ⟨_, List.mem_singleton_self _, (List.mem_singleton.1 hn).symm⟩
  · exact Resolve.slot_closed hslot

theorem Steps.all_closed {method : String} {path : Atom} {pathItem operation : Members}
    {op : Operation} (s : Steps ctx method path pathItem operation op) :
    ∀ r ∈ s.all, r.Closed :=
  s.forall_all (fun _ _ _ => Resolve.value_closed) (fun _ _ _ => paramsInterface_closed)
    fun _ _ _ _ => contentOf_closed

theorem Steps.types_eq {method : String} {path : Atom} {pathItem operation : Members}
    {op : Operation} (s : Steps ctx method path pathItem operation op) :
    op.types = s.all.map (·.type) := by
  simp only [types, s.pathParams_eq, s.params_eq, s.body_eq, s.response_eq, all, List.map_append,
    List.map_map]
  congr 1
  · congr 1
    · congr 1
      cases s.params <;> rfl
    · cases s.body <;> rfl
  · cases s.response <;> rfl

theorem make_closed {method : String} {path : Atom} {pathItem : Members} {operation : Value}
    {op : Operation} (h : (make ctx method path pathItem operation).outcome = .ok op) :
    op.Closed := by
  obtain ⟨ms, -, s, himports, hdeclarations⟩ := make_ok h
  have hall := s.all_closed
  refine ⟨?_, ?_, fun t ht => ?_⟩
  · rw [hdeclarations]
    exact Resolve.scopeClosed_declarationsOf hall
  · rw [himports, hdeclarations]
    exact Resolve.declaredIn_importsOf hall
  · rw [s.types_eq] at ht
    obtain ⟨r, hr, rfl⟩ := List.mem_map.1 ht
    rw [himports]
    exact (hall r hr).imported.mono (Resolve.imports_subset hr)

theorem ofTarget_closed {ops : List Operation} (h : (ofTarget ctx).outcome = .ok ops) :
    ∀ op ∈ ops, op.Closed := by
  obtain ⟨ws, -, hops⟩ := ofTarget_ok.1 h
  intro op hop
  obtain ⟨w, -, hw⟩ := exists_left_of_forall₂ hops hop
  exact make_closed hw

end Operation

/-! ## All that a run declares -/

/-- What a run declares, where nothing is looked for that is not declared: each document finds its
own declarations, the operations those of the target. -/
structure Bundle.Closed (b : Bundle) : Prop where
  volumes : ∀ v ∈ b.volumes, ScopeClosed v.declarations
  operations : ∃ v ∈ b.volumes, v.document = b.target ∧ ∀ op ∈ b.operations,
    DeclaredIn v.declarations op.imports ∧ ∀ t ∈ op.types, Imported op.imports t.names

theorem Bundle.make_closed {config : Config} {target : String} {documents : Registry} {b : Bundle}
    (h : Bundle.make config target documents = .ok b) : b.Closed := by
  obtain ⟨own, others, htarget, -, hops, -, hvolumes, -⟩ := Bundle.make_ok h
  have hclosed := Operation.ofTarget_closed hops
  have hneeded : ScopeClosed (b.operations.flatMap (·.declarations)) := by
    refine ⟨fun d hd => ?_, fun d hd => ?_⟩
    · obtain ⟨op, hop, hd⟩ := List.mem_flatMap.1 hd
      exact ((hclosed op hop).declarations.declared d hd).mono
        fun e he => List.mem_flatMap.2 ⟨op, hop, he⟩
    · obtain ⟨op, hop, hd⟩ := List.mem_flatMap.1 hd
      exact (hclosed op hop).declarations.imported d hd
  constructor
  · intro v hv
    obtain ⟨ds, hds, hdeclarations⟩ := Bundle.volume_ok h hv
    rw [hdeclarations]
    refine ScopeClosed.gathers ((Definition.ofDocument_closed hds).append ?_)
      (gathers_firstOfName _)
    split
    · exact hneeded
    · exact .nil
  · refine ⟨_, hvolumes ▸ List.mem_cons_self .., htarget.symm, fun op hop => ⟨?_, ?_⟩⟩
    · refine DeclaredIn.gathers ?_ (gathers_firstOfName _)
      exact (hclosed op hop).declared.mono fun e he =>
        List.mem_append_right _ (List.mem_flatMap.2 ⟨op, hop, he⟩)
    · exact (hclosed op hop).imported

/-- Whatever is made finds what it imports from beside among the declarations that come with it, and
imports what it uses: the type of a schema in a slot, the declarations of an entry, a params
interface, an operation, declarations put together or reduced to the first of each name, and all
that a run declares. -/
theorem scopes_closed :
    (∀ (ctx : Context) (s : Schema) (name : Option String) (combined : Bool) (r : Resolved),
      (Resolve.slot ctx s name combined).outcome = .ok r → r.Closed) ∧
    (∀ (ctx : Context) (e : Components.Entry) (ds : List Declaration),
      (Definition.ofEntry ctx e).outcome = .ok ds → ScopeClosed ds) ∧
    (∀ (ctx : Context) (name : String) (query : List Parameter) (r : Resolved),
      (Operation.paramsInterface ctx name query).outcome = .ok r → r.Closed) ∧
    (∀ (ctx : Context) (method : String) (path : Atom) (pathItem : Members) (operation : Value)
      (op : Operation),
      (Operation.make ctx method path pathItem operation).outcome = .ok op → op.Closed) ∧
    (∀ ds : List Declaration, ScopeClosed ds →
      ScopeClosed (Declaration.merge ds) ∧ ScopeClosed (firstOfName (·.name) ds)) ∧
    ∀ (config : Config) (target : String) (documents : Registry) (b : Bundle),
      Bundle.make config target documents = .ok b → b.Closed :=
  ⟨fun _ _ _ _ _ => Resolve.slot_closed, fun _ _ _ => Definition.ofEntry_closed,
    fun _ _ _ _ => Operation.paramsInterface_closed, fun _ _ _ _ _ _ => Operation.make_closed,
    fun ds h => ⟨h.gathers (Declaration.gathers_merge ds), h.gathers (gathers_firstOfName ds)⟩,
    fun _ _ _ _ => Bundle.make_closed⟩

/-- A document with a schema that refers to another one and has declarations below it, and with an
operation. -/
def petDocument : Value :=
  let street : Value := .map [(.text "street", .map [(.text "type", .text "string")])]
  let kinds : Value := .map [(.text "enum", .list [.text "cat", .text "dog"])]
  let pet : Value := .map [(.text "properties", .map [
    (.text "tag", .map [(.text "$ref", .text "#/components/schemas/Tag")]),
    (.text "home", .map [(.text "properties", street)]),
    (.text "kinds", .map [(.text "type", .text "array"), (.text "items", kinds)])])]
  let limit : Value := .map [(.text "name", .text "limit")]
  .map [
    (.text "components", .map [(.text "schemas", .map [
      (.text "Tag", .map [(.text "type", .text "object")]), (.text "Pet", pet)])]),
    (.text "paths", .map [(.text "/pets", .map [(.text "get", .map [
      (.text "parameters", .list [limit])])])])]

theorem scopes_closed_pet :
    ∃ b, Bundle.make ⟨"/api.json", "out", Config.defaultSuffixes, true⟩ "/api.json"
        [("/api.json", petDocument)] = .ok b ∧
      b.volumes.map (fun v => v.declarations.map (·.name)) =
        [["Tag", "PetHome", "PetKindsItem", "Pet", "GetPetsParams"]] ∧ b.Closed := by
  obtain ⟨b, hb, hnames⟩ := Except.exists_of_any
    (x := Bundle.make ⟨"/api.json", "out", Config.defaultSuffixes, true⟩ "/api.json"
      [("/api.json", petDocument)])
    (p := fun b => b.volumes.map (fun v => v.declarations.map (·.name)) =
      [["Tag", "PetHome", "PetKindsItem", "Pet", "GetPetsParams"]]) (by decide +kernel)
  exact ⟨b, hb, of_decide_eq_true hnames, scopes_closed.2.2.2.2.2 _ _ _ _ hb⟩

end ApiTypes

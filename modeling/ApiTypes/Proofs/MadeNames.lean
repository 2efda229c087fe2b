import ApiTypes.Proofs.CrossImports
import ApiTypes.Proofs.NameChars
import ApiTypes.Proofs.Naming
import ApiTypes.Proofs.ReferenceNames

/-!
# What names of declarations are made of

Every declaration is named by words, numbers and the suffixes in force, put together.

* `Name.Inherited` : what the names that are made below a name have, if it has it;
* `Resolve.inherited_named`, `Operation.inherited_make` : so have the names in a schema, and those
  of what is declared for an operation;
* `Definition.made_ofDocument`, `Operation.made_ofTarget` : words, numbers and suffixes make the
  names of all that is declared for a document, and for operations;
* `Bundle.made_names` : so they do for all that a run declares.
-/

namespace ApiTypes

/-! ## What the names below a name keep -/

/-- What the names that are made below a name have, if it has it. -/
structure Name.Inherited (P : String → Prop) : Prop where
  child : ∀ {ctx : Context} {parent : String} {key : Value} {n : String},
    Resolve.childName ctx parent key = .ok n → P parent → P n
  pascal : ∀ {n}, P n → P (Name.pascal n)
  word : ∀ {n word}, Name.pascal word = word → P n → P (n ++ word)
  number : ∀ {n} (k : Nat), P n → P (n ++ toString k)

theorem Name.Laws.inherited {P : String → Prop} (laws : Laws P) : Inherited P where
  child h _ := Resolve.made_childName laws h
  pascal _ := laws.pascal _
  word hword h := laws.append h (laws.word hword)
  number k h := laws.append h (laws.number k)

section
variable {P : String → Prop} (hP : Name.Inherited P) {ctx : Context}
include hP

/-! ## Schemas -/

namespace Resolve

theorem inherited_memberName {parent n : String} {key : Value} (h : MemberName ctx parent key n)
    (hparent : P parent) : P n := by
  cases h with
  | child h => exact hP.child h hparent
  | again h => exact hP.number _ (hP.child h hparent)

theorem inherited_below? {s t : Schema} {name m : Option String} {step : Step}
    (h : below? ctx s name step = some (t, m)) (hname : ∀ n ∈ name, P n) : ∀ n ∈ m, P n := by
  intro n hn
  obtain rfl := Option.mem_def.1 hn
  have hbelow := h
  unfold below? at h
  split at h
  · obtain ⟨-, p, -, parent, rfl, hmember⟩ := memberName_of_below? hbelow
    exact inherited_memberName hP hmember (hname parent rfl)
  · obtain ⟨-, hitem⟩ := Prod.mk.inj (Option.some.inj h)
    obtain ⟨parent, hparent, rfl⟩ := Option.map_eq_some_iff.1 hitem
    exact hP.word (by decide) (hname parent hparent)
  · obtain ⟨-, rfl⟩ := Prod.mk.inj (Option.some.inj h)
    exact hname n rfl
  · rename_i keyword _ _
    obtain ⟨u, -, h⟩ := Option.bind_eq_some_iff.1 h
    obtain ⟨-, hnumbered⟩ := Prod.mk.inj (Option.some.inj h)
    obtain ⟨base, hbase, rfl⟩ := Option.map_eq_some_iff.1 hnumbered
    obtain ⟨parent, hparent, rfl⟩ := Option.map_eq_some_iff.1 hbase
    have hpart : P (Name.pascal parent ++ Name.pascal keyword.text) :=
      hP.word (by cases keyword <;> decide) (hP.pascal (hname parent hparent))
    split
    · exact hpart
    · exact hP.number _ hpart
  · cases h

theorem inherited_at? {s t : Schema} {name m : Option String} {site : Site}
    (h : at? ctx s name site = some (t, m)) (hname : ∀ n ∈ name, P n) : ∀ n ∈ m, P n := by
  induction site generalizing s name with
  | nil =>
    obtain ⟨-, rfl⟩ := Prod.mk.inj (Option.some.inj h)
    exact hname
  | cons step rest ih =>
    obtain ⟨⟨u, k⟩, hstep, hrest⟩ := Option.bind_eq_some_iff.1 h
    exact ih hrest (inherited_below? hP hstep hname)

/-- What is named in a schema has what the name has that the schema is read under. -/
theorem inherited_named {s : Schema} {name : Option String} {n : String} (h : Named ctx s name n)
    (hname : ∀ m ∈ name, P m) : P n := by
  cases h with
  | part hsite _ hbelow =>
    exact inherited_below? hP hbelow (inherited_at? hP hsite hname) n rfl
  | values hsite => exact hP.pascal (inherited_at? hP hsite hname _ rfl)

theorem inherited_value {s : Schema} {name : Option String} {r : Resolved}
    (h : (value ctx s name).outcome = .ok r) (hname : ∀ n ∈ givenName name, P n) :
    ∀ d ∈ r.declarations, P d.name :=
  fun d hd => inherited_named hP (value_named h d hd) hname

theorem inherited_slot {s : Schema} {name : Option String} {combined : Bool} {r : Resolved}
    (h : (slot ctx s name combined).outcome = .ok r) (hname : ∀ n ∈ givenName name, P n) :
    ∀ d ∈ r.declarations, P d.name := by
  intro d hd
  rcases slot_named h d hd with hgiven | hnamed
  · exact hname _ hgiven
  · exact inherited_named hP hnamed hname

end Resolve

/-! ## Operations -/

namespace Operation

theorem inherited_freeName {claimed : List String} {name : String} (h : P name) :
    P (freeName claimed name) := by
  unfold freeName
  split
  · exact hP.word (by decide) h
  · exact h

theorem inherited_paramsInterface {name : String} {query : List Parameter} {r : Resolved}
    (h : (paramsInterface ctx name query).outcome = .ok r) (hname : P name) :
    ∀ d ∈ r.declarations, P d.name := by
  obtain ⟨names, types, members, hnames, htypes, -, rfl⟩ := paramsInterface_ok h
  intro d hd
  rcases List.mem_append.1 hd with hd | hd
  · obtain ⟨t, ht, hd⟩ := List.mem_flatMap.1 hd
    obtain ⟨⟨p, own⟩, hp, hslot⟩ := exists_left_of_forall₂ htypes ht
    refine Resolve.inherited_slot hP hslot (Resolve.made_givenName fun n hown => ?_) d hd
    have hkey : (p.name, some n) ∈ (query.map (·.name)).zip names := by
      rw [List.zip_map_left]
      exact List.mem_map.2 ⟨(p, own), hp, congrArg (p.name, ·) hown⟩
    obtain ⟨parent, hparent, hmember⟩ := Resolve.childNames_named hnames hkey
    obtain rfl := Option.some.inj hparent
    exact Resolve.inherited_memberName hP hmember hname
  · obtain rfl := List.mem_singleton.1 hd
    exact hname

theorem inherited_contentOf {name : String} {component : Option Value} {r : Resolved}
    (h : (contentOf ctx name component).outcome = .ok (some r)) (hname : P name) :
    ∀ d ∈ r.declarations, P d.name := by
  obtain ⟨ms, -, ⟨ref, info, -, -, rfl⟩ | ⟨schema, -, -, hslot⟩⟩ := contentOf_ok h
  · simp [Resolved.plain]
  · refine Resolve.inherited_slot hP hslot (Resolve.made_givenName fun m hm => ?_)
    obtain rfl := Option.some.inj hm
    exact hname

/-- What is declared for an operation has what its type name has with the word for each part. -/
theorem inherited_make {method : String} {path : Atom} {pathItem : Members} {operation : Value}
    {op : Operation} (h : (make ctx method path pathItem operation).outcome = .ok op)
    (hparts : ∀ part ∈ parts, P (op.typeName ++ part)) : ∀ d ∈ op.declarations, P d.name := by
  obtain ⟨ms, -, s, -, hdeclarations⟩ := make_ok h
  rw [hdeclarations]
  intro d hd
  obtain ⟨r, hr, hd⟩ := List.mem_flatMap.1 hd
  have hnames : ∀ n ∈ partNames s.claimed op, P n := by
    intro n hn
    obtain ⟨part, hpart, rfl⟩ := List.mem_map.1 hn
    exact inherited_freeName hP (hparts part hpart)
  refine s.forall_all (P := fun r => ∀ d ∈ r.declarations, P d.name) ?_ ?_ ?_ r hr d hd
  · exact fun p _ q hvalue => Resolve.inherited_value hP hvalue (by simp [Resolve.givenName])
  · exact fun name hname q hq => inherited_paramsInterface hP hq (hnames name hname)
  · exact fun name hname component q hq => inherited_contentOf hP hq (hnames name hname)

end Operation

end

/-! ## Documents -/

/-- The suffix of an entry is none, or one in force. -/
theorem Components.suffix_of_entries {ctx : Context} {es : List Entry} (h : entries ctx = .ok es) :
    ∀ e ∈ es, e.suffix = .text "" ∨ ∃ componentType, ctx.suffixFor componentType = .ok e.suffix := by
  have hschemas : ∀ ms, ∀ e ∈ schemaEntries ms, e.suffix = .text "" := by
    intro ms e he
    obtain ⟨m, -, rfl⟩ := List.mem_map.1 he
    rfl
  unfold entries at h
  obtain ⟨document, -, h⟩ := Except.bind_eq_ok.1 h
  split at h
  · obtain ⟨schemas, -, h⟩ := Except.bind_eq_ok.1 h
    obtain ⟨others, hothers, h⟩ := Except.bind_eq_ok.1 h
    obtain rfl := Except.ok.inj h
    obtain ⟨parts, hparts, rfl⟩ := entriesOfTypes_ok hothers
    intro e he
    rcases List.mem_append.1 he with he | he
    · exact .inl (hschemas _ e he)
    · obtain ⟨own, hown, he⟩ := List.mem_flatten.1 he
      obtain ⟨componentType, -, suffix, ms, hsuffix, -, hentries⟩ :=
        exists_left_of_forall₂ hparts hown
      obtain ⟨m, -, s, -, rfl⟩ := (mem_contentEntries hentries).1 he
      exact .inr ⟨componentType, hsuffix⟩
  · dsimp only at h
    split_ifs at h
    · obtain ⟨name, -, h⟩ := Except.bind_eq_ok.1 h
      obtain rfl := Except.ok.inj h
      exact List.forall_mem_singleton.2 (.inl rfl)
    · obtain rfl := Except.ok.inj h
      intro e he
      obtain ⟨key, -, he⟩ := List.mem_flatMap.1 he
      exact .inl (hschemas _ e he)

section
variable {P : String → Prop} (laws : Name.Laws P) {ctx : Context} (hctx : ctx.SuffixesHave P)
include laws hctx

namespace Definition

theorem made_declaredName {es : List Components.Entry} (hes : Components.entries ctx = .ok es)
    {e : Components.Entry} (he : e ∈ es) {name : String} (h : e.declaredName = .ok name) :
    P name := by
  unfold Components.Entry.declaredName at h
  obtain ⟨base, hbase, h⟩ := Except.bind_eq_ok.1 h
  obtain ⟨suffix, hsuffix, h⟩ := Except.bind_eq_ok.1 h
  obtain rfl : base ++ suffix = name := Except.ok.inj h
  have htext : e.suffix = .text suffix := Form.text_of_ok hsuffix
  refine laws.append (Resolve.made_pascal laws hbase) ?_
  rcases Components.suffix_of_entries hes e he with hnone | ⟨componentType, hforce⟩
  · obtain rfl : suffix = "" := by simpa [Value.text] using htext.symm.trans hnone
    exact laws.empty
  · exact hctx componentType suffix (htext ▸ hforce)

theorem made_ofDocument {ds : List Declaration} (h : (ofDocument ctx).outcome = .ok ds) :
    ∀ d ∈ ds, P d.name := by
  intro d hd
  obtain ⟨es, hes, e, he, hname⟩ := (ofDocument_names h d.name).1 ⟨d, hd, rfl⟩
  generalize d.name = n at hname
  cases hname with
  | own hown => exact made_declaredName laws hctx hes he hown
  | below hown hvalue hd =>
    refine Resolve.inherited_value laws.inherited hvalue ?_ _ hd
    refine Resolve.made_givenName fun m hm => ?_
    obtain rfl := Option.some.inj hm
    exact made_declaredName laws hctx hes he hown

end Definition

end

section
variable {P : String → Prop} (laws : Name.Laws P) {ctx : Context}
include laws

theorem Operation.made_ofTarget {ops : List Operation} (h : (ofTarget ctx).outcome = .ok ops) :
    ∀ op ∈ ops, ∀ d ∈ op.declarations, P d.name := by
  obtain ⟨ws, -, hmade⟩ := ofTarget_ok.1 h
  have hword : ∀ part ∈ parts, Name.pascal part = part := by decide +kernel
  intro op hop
  obtain ⟨w, -, hmake⟩ := exists_left_of_forall₂ hmade hop
  exact inherited_make laws.inherited hmake fun part hpart =>
    laws.append (laws.pascal _) (laws.word (hword part hpart))

/-! ## All that a run declares -/

/-- The names of all declarations of a run have what words, numbers and the suffixes in force have. -/
theorem Bundle.made_names {config : Config} {target : String} {documents : Registry} {b : Bundle}
    (h : make config target documents = .ok b)
    (hsuffixes : ∀ componentType, P (config.suffixOf componentType)) :
    ∀ v ∈ b.volumes, ∀ d ∈ v.declarations, P d.name := by
  have hforce : ∀ key, (contextOf config documents key).SuffixesHave P := by
    intro key componentType suffix hsuffix
    rw [Config.suffixFor_overrides config rfl] at hsuffix
    obtain rfl : config.suffixOf componentType = suffix := by simpa [Value.text] using hsuffix
    exact hsuffixes componentType
  obtain ⟨own, others, -, -, hoperations, -⟩ := make_ok h
  intro v hv d hd
  obtain ⟨ds, hds, hfirst⟩ := volume_ok h hv
  rw [hfirst] at hd
  rcases List.mem_append.1 (firstOfName_subset _ _ hd) with hd | hd
  · exact Definition.made_ofDocument laws (hforce _) hds d hd
  · split at hd
    · obtain ⟨op, hop, hd⟩ := List.mem_flatMap.1 hd
      exact Operation.made_ofTarget laws hoperations op hop d hd
    · cases hd

end
end ApiTypes

import ApiTypes.Proofs.Parts

/-!
# What the type of a schema can fail on

Any value can be read as a schema, and most that it says may have any form. What is left that the
type of a schema can fail on is named here, in terms of what the documents hold.

* `Value.hasTextKeys` : the values whose mappings have texts as keys, as in JSON;
* `Reference.Lost` : a reference that does not lead to a node of a loaded document;
* `Reference.Odd` : a reference that cannot be looked up at all;
* `Reference.Chain` : the references that a reference leads to;
* `Resolve.Misses`, `Resolve.Odd` : the schemas with such references, and the others that have no
  type;
* `schema_faults` : there are no others;
* `schema_faults_odd_type` : a schema without references that has no type.
-/

namespace ApiTypes

/-! ## Values with texts as keys -/

namespace Value

mutual

/-- Whether the keys of a mapping, and of all mappings in a value, are texts. -/
def hasTextKeys : Value → Bool
  | atom _ => true
  | list items => hasTextKeysItems items
  | map members => hasTextKeysMembers members

def hasTextKeysItems : List Value → Bool
  | [] => true
  | v :: rest => hasTextKeys v && hasTextKeysItems rest

def hasTextKeysMembers : List (Atom × Value) → Bool
  | [] => true
  | (key, v) :: rest => key.text?.isSome && hasTextKeys v && hasTextKeysMembers rest

end

theorem hasTextKeysItems_iff {items : List Value} :
    hasTextKeysItems items = true ↔ ∀ v ∈ items, v.hasTextKeys = true := by
  induction items with
  | nil => simp [hasTextKeysItems]
  | cons v rest ih => rw [hasTextKeysItems, Bool.and_eq_true, ih, List.forall_mem_cons]

theorem hasTextKeysMembers_iff {ms : Members} :
    hasTextKeysMembers ms = true ↔
      ∀ m ∈ ms, m.1.text?.isSome = true ∧ m.2.hasTextKeys = true := by
  induction ms with
  | nil => simp [hasTextKeysMembers]
  | cons m rest ih =>
    obtain ⟨key, v⟩ := m
    rw [hasTextKeysMembers, Bool.and_eq_true, Bool.and_eq_true, ih, List.forall_mem_cons]

end Value

/-- The properties of a schema that is read from such a value have texts as keys. -/
theorem textKeys_laws : Schema.ReadingLaws (·.hasTextKeys = true) (fun _ => True)
    (fun keys => ∀ key ∈ keys, key.text?.isSome = true) where
  item _ h := Value.hasTextKeysItems_iff.1 h
  member _ h m hm := (Value.hasTextKeysMembers_iff.1 h m hm).2
  reference _ _ _ _ := trivial
  keys _ h _ hkey := by
    obtain ⟨m, hm, rfl⟩ := List.mem_map.1 hkey
    exact (Value.hasTextKeysMembers_iff.1 h m hm).1

namespace Form

variable {P : Fault → Prop}

theorem failsOnly_pascal_text {key : Atom} (h : key.text?.isSome = true) :
    FailsOnly P (pascal (.atom key)) := by
  cases key with
  | text s => exact failsOnly_ok _
  | _ => cases h

theorem failsOnly_text_text {key : Atom} (h : key.text?.isSome = true) :
    FailsOnly P (text (.atom key)) := by
  cases key with
  | text s => exact failsOnly_ok _
  | _ => cases h

/-- A mapping that may be left out fails only where something else is given. -/
theorem failsOnly_optionalMapping_given {v : Option Value}
    (h : ∀ w, v = some w → w.isTrue = true → w.members? = none → P (.defect .notMapping)) :
    FailsOnly P (optionalMapping v) := by
  unfold optionalMapping Value.orEmpty
  cases v with
  | none => exact failsOnly_ok _
  | some w =>
    dsimp only
    split_ifs with hgiven
    · cases w with
      | map ms => exact failsOnly_ok _
      | _ => exact failsOnly_error (h _ rfl hgiven rfl)
    · exact failsOnly_ok _

/-- Only an atom that is given and no text cannot be looked through for a name. -/
theorem failsOnly_holds_given {v : Option Value} (name : String)
    (h : ∀ a, v = some (.atom a) → a.isTrue = true → a.text? = none → P (.defect .notRow)) :
    FailsOnly P (holds (Value.orEmpty v) name) := by
  unfold Value.orEmpty
  cases v with
  | none => exact failsOnly_ok _
  | some w =>
    dsimp only
    split_ifs with hgiven
    · cases w with
      | map ms => exact failsOnly_ok _
      | list items => exact failsOnly_ok _
      | atom a =>
        cases a with
        | text s => exact failsOnly_ok _
        | _ => exact failsOnly_error (h _ rfl hgiven rfl)
    · exact failsOnly_ok _

end Form

/-! ## References -/

/-- A token that is to be a position in a list and is none: digits that write no number, or more of
them than are read. -/
def Pointer.IsOddPosition (token : String) : Prop :=
  token.toList ≠ [] ∧ token.toList.all Text.isDigit = true ∧
    (Text.natOfDecimals? token.toList = none ∨ maxDigits < token.toList.length)

/-- A pointer is looked up unless it names such a position of a list on its way. -/
theorem Pointer.oddPosition_of_walk {v : Value} {tokens : List String}
    (h : walk v tokens = .error .notNumeral) :
    ∃ before token after items, tokens = before ++ token :: after ∧
      walk v before = .ok (.list items) ∧ IsOddPosition token := by
  induction tokens generalizing v with
  | nil => cases h
  | cons token rest ih =>
    rw [walk] at h
    cases hstep : step v token with
    | ok w =>
      rw [hstep] at h
      obtain ⟨before, odd, after, items, rfl, hwalk, hodd⟩ := ih h
      refine ⟨token :: before, odd, after, items, rfl, ?_, hodd⟩
      rw [walk, hstep]
      exact hwalk
    | error f =>
      rw [hstep] at h
      obtain rfl : f = .notNumeral := Except.error.inj h
      cases v with
      | map ms =>
        rw [step] at hstep
        split at hstep <;> cases hstep
      | atom a => cases hstep
      | list items =>
        refine ⟨[], token, rest, items, rfl, rfl, ?_⟩
        rw [step] at hstep
        split at hstep
        · rename_i hdigits
          rw [Bool.and_eq_true] at hdigits
          refine ⟨by simpa using hdigits.1, hdigits.2, ?_⟩
          split at hstep
          · split_ifs at hstep with hlong
            · exact .inr hlong
            · split at hstep <;> cases hstep
          · rename_i hnone
            exact .inl hnone
        · cases hstep

namespace Reference

/-- A reference does not lead to a node of a loaded document: its document is not loaded, or its
pointer leads to nothing there. -/
inductive Lost (ctx : Context) (ref : String) : Fault → Prop
  | notLoaded (key : String) (hkey : documentKey ctx (Pointer.split ref).1 = .ok key)
      (hmissing : ctx.registry.document? key = none) :
    Lost ctx ref (.unresolved ⟨ref, ctx.current, some (.notLoaded key), none⟩)
  | noNode (key : String) (document : Value)
      (hkey : documentKey ctx (Pointer.split ref).1 = .ok key)
      (hdocument : ctx.registry.document? key = some document)
      (hmissing : ∀ node, Pointer.resolve document (Pointer.split ref).2 ≠ .ok node) :
    Lost ctx ref (.unresolved ⟨ref, ctx.current, some (.noNode (Pointer.split ref).2), none⟩)

/-- A reference cannot be looked up: it is no address where it is read in a document of the web, or
its pointer names a position of a list with what is no numeral. -/
inductive Odd (ctx : Context) (ref : String) : Fault → Prop
  | address (hweb : Url.isWeb ctx.current = true)
      (hodd : Url.resolve? ctx.current (Pointer.split ref).1 = none) :
    Odd ctx ref (.defect .badAddress)
  | position (key : String) (document : Value) (before after : List String) (token : String)
      (items : List Value) (hkey : documentKey ctx (Pointer.split ref).1 = .ok key)
      (hdocument : ctx.registry.document? key = some document)
      (htokens : Pointer.tokens (Pointer.split ref).2 = before ++ token :: after)
      (hitems : Pointer.walk document before = .ok (.list items))
      (hodd : Pointer.IsOddPosition token) :
    Odd ctx ref (.defect .notNumeral)

/-- A reference is found, or it is lost, or it cannot be looked up. -/
theorem failsOnly_locate_of {P : Fault → Prop} {ctx : Context} {ref : String}
    (hlost : ∀ f, Lost ctx ref f → P f) (hodd : ∀ f, Odd ctx ref f → P f) :
    FailsOnly P (locate ctx ref) := by
  refine FailsOnly.bind (?_ : FailsOnly P (documentKey ctx (Pointer.split ref).1))
    fun key hkey => ?_
  · unfold documentKey
    split_ifs with hown hother hweb
    · exact failsOnly_ok _
    · exact failsOnly_ok _
    · split
      · exact failsOnly_ok _
      · rename_i hnone
        exact failsOnly_error (hodd _ (.address hweb hnone))
    · exact failsOnly_ok _
  · split
    · rename_i hmissing
      exact failsOnly_error (hlost _ (.notLoaded key hkey hmissing))
    · rename_i document hdocument
      split
      · exact failsOnly_ok _
      · rename_i token hwalk
        refine failsOnly_error (hlost _ (.noNode key document hkey hdocument fun node hnode => ?_))
        exact absurd (hwalk.symm.trans hnode) (by simp)
      · rename_i hwalk
        obtain ⟨before, token, after, items, htokens, hitems, hposition⟩ :=
          Pointer.oddPosition_of_walk hwalk
        exact failsOnly_error (hodd _
          (.position key document before after token items hkey hdocument htokens hitems hposition))

/-- The references that a reference leads to, each with the context in which it is read. -/
inductive Chain (ctx : Context) (ref : String) : Context → String → Prop
  | self : Chain ctx ref ctx ref
  | next {owner : Context} {later next : String} {located : Located} {ms : Members} :
    Chain ctx ref owner later → locate owner later = .ok located → located.node = .map ms →
    Schema.refOf? ms = some next →
    Chain ctx ref ((owner.reading located.document).entering located.document located.pointer) next

/-- A chain fails only where a reference of it does. -/
theorem failsOnly_followFor_of {P : Fault → Prop} {ctx : Context} {ref : String}
    (h : ∀ owner later, Chain ctx ref owner later → FailsOnly P (locate owner later))
    {owner : Context} {later : String} (hchain : Chain ctx ref owner later) (steps : Nat) :
    FailsOnly P (followFor steps owner later) := by
  induction steps generalizing owner later with
  | zero => exact failsOnly_ok _
  | succ steps ih =>
    rw [followFor]
    refine (h owner later hchain).bind fun located hlocated => ?_
    split_ifs
    · exact failsOnly_ok _
    · dsimp only
      split
      · rename_i ms hnode
        split
        · rename_i next hnext
          exact ih (.next hchain hlocated hnode hnext)
        · exact failsOnly_ok _
      · exact failsOnly_ok _

end Reference

/-! ## Names -/

namespace Context

variable {P : Fault → Prop} {ctx : Context}

/-- The settings give no text as the suffix of a type of components. -/
inductive OddSuffix (ctx : Context) (componentType : String) : Fault → Prop
  | notMapping (hodd : ∀ suffix, ctx.suffixFor componentType ≠ .ok suffix) :
    OddSuffix ctx componentType (.defect .notMapping)
  | notText (suffix : Value) (hsuffix : ctx.suffixFor componentType = .ok suffix)
      (hodd : suffix.text? = none) :
    OddSuffix ctx componentType (.defect .notText)

/-- The names of the component schemas of the target cannot be read: its components are given and no
mapping, or its component schemas are an atom that is given and no text. -/
inductive OddTarget (ctx : Context) : Fault → Prop
  | components (document : Members) (components : Value)
      (hdocument : ctx.registry.document ctx.target = .map document)
      (hfield : document.field? "components" = some components)
      (hgiven : components.isTrue = true) (hodd : components.members? = none) :
    OddTarget ctx (.defect .notMapping)
  | schemas (document components : Members) (schemas : Atom)
      (hdocument : ctx.registry.document ctx.target = .map document)
      (hcomponents : Form.optionalMapping (document.field? "components") = .ok components)
      (hfield : components.field? "schemas" = some (.atom schemas))
      (hgiven : schemas.isTrue = true) (hodd : schemas.text? = none) :
    OddTarget ctx (.defect .notRow)

/-- A suffix is found, or the settings give none. -/
theorem failsOnly_suffixFor_of {componentType : String}
    (h : ∀ f, ctx.OddSuffix componentType f → P f) : FailsOnly P (ctx.suffixFor componentType) := by
  intro f hf
  have hmapping : ∀ v, FailsOnly (· = .defect .notMapping) (Form.optionalMapping v) :=
    fun v => Form.failsOnly_optionalMapping_given fun _ _ _ _ => rfl
  have hdefect : FailsOnly (· = .defect .notMapping) (ctx.suffixFor componentType) := by
    refine FailsOnly.bind ?_ fun ms _ => ?_
    · cases ctx.overrides with
      | map ms => exact failsOnly_ok _
      | _ => exact failsOnly_error rfl
    · exact (hmapping _).bind fun _ _ => (hmapping _).bind fun _ _ => failsOnly_ok _
  obtain rfl := hdefect f hf
  refine h _ (.notMapping fun suffix hok => ?_)
  rw [hf] at hok
  cases hok

/-- A suffix that is found is a text, or there is none. -/
theorem failsOnly_suffixed_of {componentType : String} {suffix : Value}
    (h : ∀ f, ctx.OddSuffix componentType f → P f)
    (hsuffix : ctx.suffixFor componentType = .ok suffix) (name : String) :
    FailsOnly P (Form.suffixed name suffix) := by
  refine FailsOnly.bind ?_ fun _ _ => failsOnly_ok _
  cases htext : suffix.text? with
  | some s =>
    cases suffix with
    | atom a =>
      cases a with
      | text s => exact failsOnly_ok s
      | _ => cases htext
    | _ => cases htext
  | none =>
    have hodd := h _ (.notText suffix hsuffix htext)
    cases suffix with
    | atom a =>
      cases a with
      | text s => cases htext
      | _ => exact failsOnly_error hodd
    | _ => exact failsOnly_error hodd

/-- Among documents that are mappings, whether a name is that of a component schema can be told
unless they cannot be read. -/
theorem failsOnly_isDeclared_of (hdocuments : ∀ e ∈ ctx.registry, ∃ ms, e.2 = .map ms)
    (h : ∀ f, ctx.OddTarget f → P f) (name : String) : FailsOnly P (ctx.isDeclared name) := by
  obtain ⟨document, hdocument⟩ : ∃ ms, ctx.registry.document ctx.target = .map ms := by
    unfold Registry.document
    cases hfound : ctx.registry.document? ctx.target with
    | none => exact ⟨[], rfl⟩
    | some v =>
      obtain ⟨ms, rfl⟩ := hdocuments _ (Keyed.mem_of_get? (Option.filter_eq_some_iff.1 hfound).1)
      exact ⟨ms, Value.orEmpty_map ms⟩
  unfold isDeclared targetSchemas schemasOf
  split_ifs
  · exact failsOnly_ok _
  · rw [hdocument]
    change FailsOnly P ((Form.optionalMapping (Members.field? document "components") >>=
      fun components => .ok (Value.orEmpty (components.field? "schemas"))) >>=
        fun v => Form.holds v name)
    refine FailsOnly.bind (FailsOnly.bind ?_ fun _ _ => failsOnly_ok _) fun v hv => ?_
    · exact Form.failsOnly_optionalMapping_given fun components hfield hgiven hodd =>
        h _ (.components document components hdocument hfield hgiven hodd)
    · obtain ⟨components, hcomponents, hv⟩ := Except.bind_eq_ok.1 hv
      obtain rfl := Except.ok.inj hv
      exact Form.failsOnly_holds_given name fun a hfield hgiven htext =>
        h _ (.schemas document components a hdocument hcomponents hfield hgiven htext)

end Context

/-! ## Schemas -/

namespace Resolve

/-- A reference in a schema leads to one that does not lead to a node of a loaded document. -/
inductive Misses (ctx : Context) (s : Schema) : Fault → Prop
  | mk (ref later : String) (owner : Context) (f : Fault) (href : ref ∈ s.refs)
      (hchain : Reference.Chain ctx ref owner later) (hlost : Reference.Lost owner later f) :
    Misses ctx s f

/-- What else a schema has no type for. -/
inductive Odd (ctx : Context) (s : Schema) : Fault → Prop
  /-- The type that a schema in it names is a value with parts. -/
  | type (raw : Members) (hraw : .malformed raw ∈ s.inside)
      (hodd : Schema.hasOddType raw = true) :
    Odd ctx s (.defect .notKey)
  /-- So is the type that the mapping at the end of a reference names. -/
  | typeAtEnd (ref : String) (raw : Members) (owner : Context) (href : ref ∈ s.refs)
      (hend : Reference.follow ctx ref = .ok (raw, owner))
      (hodd : Schema.hasOddType raw = true) :
    Odd ctx s (.defect .notKey)
  /-- A reference leads to one that cannot be looked up. -/
  | reference (ref later : String) (owner : Context) (f : Fault) (href : ref ∈ s.refs)
      (hchain : Reference.Chain ctx ref owner later) (hodd : Reference.Odd owner later f) :
    Odd ctx s f
  /-- A reference to a whole document of the web has an address that cannot be read. -/
  | address (ref : String) (href : ref ∈ s.refs)
      (hwhole : Pointer.tokens (Pointer.split ref).2 = [])
      (hweb : Url.isWeb (Pointer.split ref).1 = true)
      (hodd : Url.pathOf? (Pointer.split ref).1 = none) :
    Odd ctx s (.defect .badAddress)
  /-- A reference to a component gets no suffix. -/
  | suffix (ref componentType key : String) (rest : List String) (f : Fault) (href : ref ∈ s.refs)
      (htokens : Pointer.tokens (Pointer.split ref).2 =
        "components" :: componentType :: key :: rest)
      (hodd : ctx.OddSuffix componentType f) :
    Odd ctx s f
  /-- The names of properties cannot be held against those of the component schemas. -/
  | names (raw : Members) (properties : List (Atom × Schema)) (f : Fault)
      (hobject : .object raw properties ∈ s.inside) (hodd : ctx.OddTarget f) :
    Odd ctx s f

section
variable {P : Fault → Prop} {ctx : Context} {s : Schema} (hmisses : ∀ f, Misses ctx s f → P f)
  (hodd : ∀ f, Odd ctx s f → P f)
include hmisses hodd

theorem failsOnly_info_of {ref : String} (href : ref ∈ s.refs) :
    FailsOnly P (Reference.info ctx ref) := by
  refine FailsOnly.bind ?_ fun located hlocated => ?_
  · exact Reference.failsOnly_locate_of (fun f h => hmisses f (.mk ref ref ctx f href .self h))
      fun f h => hodd f (.reference ref ref ctx f href .self h)
  have hpointer := (Reference.locate_parts hlocated).2
  rw [hpointer]
  refine FailsOnly.bind ?_ fun original _ => ?_
  · unfold Reference.originalName
    split
    · rename_i hlast
      unfold Reference.documentName
      dsimp only
      split_ifs with hweb
      · split
        · exact (failsOnly_ok _).bind fun _ _ => failsOnly_ok _
        · rename_i haddress
          exact failsOnly_error
            (hodd _ (.address ref href (List.getLast?_eq_none_iff.1 hlast) hweb haddress))
      · exact (failsOnly_ok _).bind fun _ _ => failsOnly_ok _
    · exact failsOnly_ok _
  · unfold Reference.suffixOf
    split
    · rename_i componentType key rest htokens
      have hsuffix : ∀ f, ctx.OddSuffix componentType f → P f :=
        fun f h => hodd f (.suffix ref componentType key rest f href htokens h)
      refine (Context.failsOnly_suffixFor_of hsuffix).bind fun suffix hfound => ?_
      exact (Context.failsOnly_suffixed_of hsuffix hfound _).bind fun _ _ => failsOnly_ok _
    · refine FailsOnly.bind (failsOnly_ok _) fun suffix hfound => ?_
      obtain rfl := Except.ok.inj hfound
      exact FailsOnly.bind (failsOnly_ok _) fun _ _ => failsOnly_ok _

theorem failsOnly_reference_of {ref : String} (href : ref ∈ s.refs) :
    FailsOnly P (reference ctx ref) := by
  refine (failsOnly_info_of hmisses hodd href).bind fun info _ => ?_
  refine FailsOnly.bind ?_ fun target htarget => ?_
  · refine Reference.failsOnly_followFor_of (fun owner later hchain => ?_) .self _
    exact Reference.failsOnly_locate_of
      (fun f h => hmisses f (.mk ref later owner f href hchain h))
      fun f h => hodd f (.reference ref later owner f href hchain h)
  obtain ⟨raw, owner⟩ := target
  dsimp only
  split
  · rename_i found hmalformed
    have hraw : raw = found := by rw [← Schema.raw_ofValue raw, hmalformed, Schema.raw]
    have hodd' : Schema.hasOddType found = true :=
      Schema.hasOddType_of_malformed (v := .map raw) (hmalformed ▸ List.mem_cons_self ..)
    exact failsOnly_error (hodd _ (.typeAtEnd ref raw owner href htarget (hraw ▸ hodd')))
  · exact failsOnly_ok _

end

end Resolve

/-- Any value whose mappings have texts as keys has a type as a schema, among documents that are
mappings, unless a reference in it does not lead to a node of a loaded document, or what it or its
context holds is odd in one of a few ways. -/
theorem schema_faults {ctx : Context} (hdocuments : ∀ e ∈ ctx.registry, ∃ ms, e.2 = .map ms)
    {v : Value} (hkeys : v.hasTextKeys = true) (name : Option String) :
    FailsOnly (fun f => Resolve.Misses ctx (Schema.ofValue v) f ∨
      Resolve.Odd ctx (Schema.ofValue v) f)
      (Resolve.value ctx (Schema.ofValue v) name).outcome := by
  refine Resolve.failsOnly_value (fun t ht => ?_) name
  have hmade := textKeys_laws.inside_ofValue v hkeys t ht
  cases t with
  | reference raw ref =>
    exact Resolve.failsOnly_reference_of (fun _ => .inl) (fun _ => .inr)
      (Schema.mem_refs.2 ⟨raw, ht⟩)
  | malformed raw => exact .inr (.type raw ht hmade)
  | object raw properties =>
    have htexts : ∀ p ∈ properties, p.1.text?.isSome = true :=
      fun p hp => hmade p.1 (List.mem_map_of_mem hp)
    refine ⟨Resolve.failsOnly_childNames (fun key hkey => ?_) fun name => ?_,
      Resolve.failsOnly_objectOf (fun p hp => Form.failsOnly_text_text (htexts p hp)) raw⟩
    · obtain ⟨p, hp, rfl⟩ := List.mem_map.1 hkey
      exact Form.failsOnly_pascal_text (htexts p hp)
    · exact Context.failsOnly_isDeclared_of hdocuments
        (fun f h => .inr (.names raw properties f ht h)) name
  | _ => trivial

/-- A schema of which little has the form that is usual, with a reference that leads nowhere. -/
def unusualSchema : Value :=
  .map [(.text "required", .atom (.int 1)), (.text "properties", .map [
    (.text "tags", .map [(.text "type", .text "array"), (.text "items", .list [])]),
    (.text "note", .atom .null),
    (.text "owner", .map [(.text "$ref", .text "#/Owner/0")])])]

/-- A context that reads a document with a list. -/
def unusualContext : Context :=
  .start [("/api.json", .map [(.text "Owner", .list [])])] "/api.json" (.map [])

theorem schema_faults_unusual :
    ∃ f, (Resolve.value unusualContext (Schema.ofValue unusualSchema) (some "Pet")).outcome =
        .error f ∧
      (Resolve.Misses unusualContext (Schema.ofValue unusualSchema) f ∨
        Resolve.Odd unusualContext (Schema.ofValue unusualSchema) f) := by
  obtain ⟨f, hf⟩ := Except.exists_of_isNone
    (x := (Resolve.value unusualContext (Schema.ofValue unusualSchema) (some "Pet")).outcome)
    (by decide +kernel)
  refine ⟨f, hf, schema_faults (fun e he => ?_) (by decide +kernel) _ f hf⟩
  obtain rfl := List.mem_singleton.1 he
  exact ⟨_, rfl⟩

/-- A schema that names two types has none, though it refers to nothing. -/
theorem schema_faults_odd_type :
    ∃ v : Value, v.hasTextKeys = true ∧ v.refs = [] ∧
      (Resolve.value (.start [] "" (.map [])) (Schema.ofValue v) none).outcome =
        .error (.defect .notKey) :=
  ⟨.map [(.text "type", .list [.text "string", .text "null"])], by decide, by decide, rfl⟩

end ApiTypes

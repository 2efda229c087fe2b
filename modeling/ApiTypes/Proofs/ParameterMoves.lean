import ApiTypes.Proofs.RevisedOperations
import ApiTypes.Proofs.Ways

/-!
# Moves of parameters to the components

* `OtherParameters` : two documents with the same components, but for the parameters;
* `ParameterMove` : an inline parameter of a path or an operation, with the key that it gets among
  the component parameters and the reference that takes its place;
* `ParameterMove.Possible` : the parameter is there, the key is new, and no reference leads to the
  parameter or into it;
* `ParameterMove.Unread` : no reference leads to a mapping of which the move changes a member that
  is read there;
* `ParameterMove.revision_keeps` : then the move leaves to each reference what is read at its end.
-/

namespace ApiTypes

/-- A reference in one of the documents leads to some document, by a pointer of some tokens. -/
def Registry.PointsAt (r : Registry) (document : String) (tokens : List String) : Prop :=
  ∃ e ∈ r, ∃ ref ∈ e.2.refs,
    Reference.documentKey (.start r e.1 .null) (Pointer.split ref).1 = .ok document ∧
      Pointer.tokens (Pointer.split ref).2 = tokens

/-- The components of a document. -/
def componentsOf (document : Value) : Except Fault Members := do
  let ms ← Form.mapping document
  Form.optionalMapping (ms.field? "components")

/-- Two documents with the same components, but for the parameters. -/
def OtherParameters (document document' : Value) : Prop :=
  ∃ components components', componentsOf document = .ok components ∧
    componentsOf document' = .ok components' ∧ ∀ name, name ≠ "parameters" →
      Members.field? components' name = Members.field? components name

namespace OtherParameters

theorem schemasOf_eq {document document' : Value} (h : OtherParameters document document') :
    schemasOf document' = schemasOf document := by
  obtain ⟨components, components', hcomponents, hcomponents', hothers⟩ := h
  have hschemas : ∀ {v : Value} {ms : Members}, componentsOf v = .ok ms →
      schemasOf v = .ok (Value.orEmpty (Members.field? ms "schemas")) := by
    intro v ms hms
    obtain ⟨root, hroot, hms⟩ := Except.bind_eq_ok.1 hms
    exact Except.bind_eq_ok.2 ⟨root, hroot, Except.bind_eq_ok.2 ⟨ms, hms, rfl⟩⟩
  rw [hschemas hcomponents, hschemas hcomponents', hothers "schemas" (by decide)]

variable {ctx ctx' : Context}

theorem namesOfTypes_eq (hoverrides : ctx'.overrides = ctx.overrides)
    {components components' : Members} (types : List String)
    (h : ∀ componentType ∈ types,
      Members.field? components' componentType = Members.field? components componentType) :
    Components.namesOfTypes ctx' components' types =
      Components.namesOfTypes ctx components types := by
  induction types with
  | nil => rfl
  | cons componentType rest ih =>
    rw [List.forall_mem_cons] at h
    rw [Components.namesOfTypes, Components.namesOfTypes, Context.suffixFor, hoverrides, h.1,
      ih h.2, Context.suffixFor]

theorem names_eq
    (h : OtherParameters (ctx.registry.document ctx.target) (ctx'.registry.document ctx'.target))
    (hoverrides : ctx'.overrides = ctx.overrides) :
    Components.names ctx' = Components.names ctx := by
  obtain ⟨components, components', hcomponents, hcomponents', hothers⟩ := h
  have hnames : ∀ {c : Context} {ms : Members},
      componentsOf (c.registry.document c.target) = .ok ms → Components.names c = do
        let schemas ← (← Form.optionalRow (Members.field? ms "schemas")).mapM Form.pascal
        return schemas ++ (← Components.namesOfTypes c ms Components.contentTypes) := by
    intro c ms hms
    obtain ⟨root, hroot, hms⟩ := Except.bind_eq_ok.1 hms
    rw [Components.names, hroot]
    change (Form.optionalMapping (Members.field? root "components") >>= _) = _
    rw [hms]
    rfl
  have htypes : ∀ componentType ∈ Components.contentTypes, componentType ≠ "parameters" := by decide
  rw [hnames hcomponents, hnames hcomponents', hothers "schemas" (by decide),
    namesOfTypes_eq hoverrides _ fun componentType hmem => hothers _ (htypes _ hmem)]

end OtherParameters

/-- An inline parameter that is to be an entry of the component parameters. -/
structure ParameterMove where
  path : Atom
  /-- The method of the operation that lists the parameter; if there is none, the path does. -/
  owner : Option String
  index : Nat
  parameter : Members
  /-- The key of the entry. -/
  key : String
  /-- The reference that takes the parameter's place. -/
  ref : String

namespace ParameterMove

/-! ## The move -/

/-- The way to a path of a document. -/
def pathWay (m : ParameterMove) : Way := [.key (.text "paths"), .key m.path]

/-- The way from a path to its parameter. -/
def insideWay (m : ParameterMove) : Way :=
  (m.owner.map fun method => .key (.text method)).toList ++
    [.key (.text "parameters"), .item m.index]

def parameterWay (m : ParameterMove) : Way := m.pathWay ++ m.insideWay

/-- The tokens of a pointer to the entry. -/
def entryTokens (m : ParameterMove) : List String := ["components", "parameters", m.key]

def entryWay (m : ParameterMove) : Way :=
  [.key (.text "components"), .key (.text "parameters"), .key (.text m.key)]

/-- A document with the entry. -/
def withEntry (m : ParameterMove) (document : Value) : Value :=
  document.setAt m.entryWay (.map m.parameter)

/-- The document after the move. -/
def apply (m : ParameterMove) (document : Value) : Value :=
  (m.withEntry document).setAt m.parameterWay (.map (Reference.mappingOf m.ref))

/-- The documents after the move. -/
def registry (m : ParameterMove) (r : Registry) (target : String) : Registry :=
  Keyed.put r target (m.apply (r.document target))

/-- The parameter is there, the key is new, the reference leads to the entry, and no other reference
leads to the parameter or into it. -/
structure Possible (m : ParameterMove) (r : Registry) (target : String) : Prop where
  written : (r.document target).at? m.parameterWay = some (.map m.parameter)
  inline : Schema.refOf? m.parameter = none
  fresh : ∃ components entries, componentsOf (r.document target) = .ok components ∧
    Form.optionalMapping (Members.field? components "parameters") = .ok entries ∧
    Members.field? entries m.key = none
  document : Reference.documentKey (.start r target .null) (Pointer.split m.ref).1 = .ok target
  tokens : Pointer.tokens (Pointer.split m.ref).2 = m.entryTokens
  apart : ∀ tokens, r.PointsAt target tokens → ¬ m.parameterWay.Reached tokens

/-- No reference leads to the paths if the path of the parameter is shown there, nor to the
component parameters if the new key is read there. -/
structure Unread (m : ParameterMove) (r : Registry) (target : String) : Prop where
  path : ∀ word ∈ Members.shownWords, m.path = .text word → ¬ r.PointsAt target ["paths"]
  key : m.key ∈ Members.shownWords ++ Members.readWords →
    ¬ r.PointsAt target ["components", "parameters"]

/-- The documents before and after the move. -/
def revision (m : ParameterMove) (r : Registry) (target : String) : Revision where
  before := r
  after := m.registry r target
  target
  fresh := (target, (Pointer.split m.ref).2)

end ParameterMove

/-! ## What is read where a member is set -/

namespace Revision

theorem field?_membersOf (v : Value) (name : String) :
    (membersOf v).field? name = v.field? name := by
  cases v <;> rfl

/-- The members that are read at the end of a reference only if they are texts or lists. -/
def flatWords : List String := ["$ref", "allOf", "oneOf", "anyOf", "enum"]

theorem readSame_of_field? {u v : Value} (hflat : ∀ word ∈ flatWords,
      (v.field? word).bind Value.text? = (u.field? word).bind Value.text? ∧
        (v.field? word).bind Value.items? = (u.field? word).bind Value.items?)
    (hshown : ∀ word ∈ Members.shownWords, v.field? word = u.field? word)
    (hread : ∀ word ∈ Members.readWords, Members.SameField (u.field? word) (v.field? word)) :
    (membersOf u).ReadSame (membersOf v) where
  ref := by
    rw [Schema.refOf?, Schema.refOf?, field?_membersOf, field?_membersOf]
    exact (hflat "$ref" (by decide)).1
  items keyword := by
    rw [Schema.itemsOf?, Schema.itemsOf?, field?_membersOf, field?_membersOf]
    exact (hflat keyword.text (by cases keyword <;> decide)).2
  values := by
    rw [Schema.enumOf?, Schema.enumOf?, field?_membersOf, field?_membersOf]
    exact (hflat "enum" (by decide)).2
  shown word hword := by
    rw [field?_membersOf, field?_membersOf, hshown word hword]
  field word hword := by
    rw [field?_membersOf, field?_membersOf]
    exact hread word hword

/-- What is set at a place in a list is not read. -/
theorem readSame_item (u w : Value) (index : Nat) (rest : Way) :
    (membersOf u).ReadSame (membersOf (u.setAt (.item index :: rest) w)) := by
  have hfield := Value.field?_setAt_item u w index rest
  refine readSame_of_field? (fun word _ => ?_) (fun word _ => hfield word) fun word _ => ?_
  · rw [hfield]
    exact ⟨rfl, rfl⟩
  · rw [hfield]
    exact .same _

/-- If a value has some member, it is a mapping. -/
def HoldsMapping (v : Value) (word : String) : Prop :=
  ∀ w, v.field? word = some w → ∃ ms, w = .map ms

theorem HoldsMapping.eq_none {v : Value} {word : String} (h : HoldsMapping v word) :
    (v.field? word).bind Value.text? = none ∧ (v.field? word).bind Value.items? = none := by
  cases hw : v.field? word with
  | none => exact ⟨rfl, rfl⟩
  | some w =>
    obtain ⟨ms, rfl⟩ := h w hw
    exact ⟨rfl, rfl⟩

/-- Where a member is set the same is read if it is not shown, if the same is read of it before and
after, and if it is to be a text or a list and is neither. -/
theorem readSame_key {u w : Value} {key : Atom} {rest : Way}
    (hshown : ∀ word ∈ Members.shownWords, key ≠ .text word)
    (hread : ∀ word ∈ Members.readWords, key = .text word →
      Members.SameField (u.field? word) ((u.setAt (.key key :: rest) w).field? word))
    (hflat : ∀ word ∈ flatWords, key = .text word →
      HoldsMapping u word ∧ HoldsMapping (u.setAt (.key key :: rest) w) word) :
    (membersOf u).ReadSame (membersOf (u.setAt (.key key :: rest) w)) := by
  refine readSame_of_field? (fun word hword => ?_)
    (fun word hword => Value.field?_setAt (hshown word hword)) fun word hword => ?_
  · by_cases hkey : key = .text word
    · obtain ⟨hbefore, hafter⟩ := hflat word hword hkey
      rw [hbefore.eq_none.1, hbefore.eq_none.2, hafter.eq_none.1, hafter.eq_none.2]
      exact ⟨rfl, rfl⟩
    · rw [Value.field?_setAt hkey]
      exact ⟨rfl, rfl⟩
  · by_cases hkey : key = .text word
    · exact hread word hword hkey
    · rw [Value.field?_setAt hkey]
      exact .same _

/-- A member under none of the words that are read. -/
theorem readSame_other {name : String}
    (hname : name ∉ Members.shownWords ++ Members.readWords ++ flatWords) (u w : Value)
    (rest : Way) :
    (membersOf u).ReadSame (membersOf (u.setAt (.key (.text name) :: rest) w)) := by
  rw [List.mem_append, List.mem_append, not_or, not_or] at hname
  obtain ⟨⟨hshown, hread⟩, hflat⟩ := hname
  refine readSame_key (fun word hword heq => hshown ?_) (fun word hword heq => absurd ?_ hread)
    fun word hword heq => absurd ?_ hflat
  · rwa [Atom.text.inj heq]
  · rwa [Atom.text.inj heq]
  · rwa [Atom.text.inj heq]

end Revision

namespace ParameterMove

open Revision

variable {m : ParameterMove} {r : Registry} {target : String}

/-! ## The document with the entry -/

section
variable {document : Value} {components entries : Members}
  (hcomponents : componentsOf document = .ok components)
  (hentries : Form.optionalMapping (Members.field? components "parameters") = .ok entries)
include hcomponents hentries

/-- The components with the entry. -/
theorem withEntry_eq : ∃ root, document = .map root ∧
    Form.optionalMapping (Members.field? root "components") = .ok components ∧
    m.withEntry document = .map (Members.put root (.text "components")
      (.map (components.put (.text "parameters")
        (.map (entries.put (.text m.key) (.map m.parameter)))))) := by
  obtain ⟨root, hroot, hcomponents⟩ := Except.bind_eq_ok.1 hcomponents
  obtain rfl := Form.mapping_ok.1 hroot
  refine ⟨root, rfl, hcomponents, ?_⟩
  have hset := Value.setAt_map root (.text "components")
    [.key (.text "parameters"), .key (.text m.key)] (.map m.parameter)
  rw [show Members.get? root (.text "components") = Members.field? root "components" from rfl,
    Value.setAt_optional hcomponents,
    show Members.get? components (.text "parameters") = components.field? "parameters" from rfl,
    Value.setAt_optional hentries] at hset
  exact hset

/-- A pointer that has led somewhere does not lead to the new entry. -/
theorem not_reached_entry (hnew : Members.field? entries m.key = none) {u : Value}
    {tokens : List String} (h : Pointer.walk document tokens = .ok u) :
    ¬ m.entryWay.Reached tokens := by
  rintro ⟨front, rest, rfl, hfront⟩
  obtain rfl : front = m.entryTokens := Way.Names.of_keys rfl hfront
  obtain ⟨root, rfl, hoptional, -⟩ := withEntry_eq (m := m) hcomponents hentries
  obtain ⟨v, hv, h⟩ := Pointer.walk_cons h
  obtain ⟨w, hw, h⟩ := Pointer.walk_cons h
  obtain ⟨x, hx, -⟩ := Pointer.walk_cons h
  rw [Pointer.step_map hv] at hoptional
  obtain ⟨-, hfield⟩ := Pointer.step_optional hoptional hw
  rw [hfield] at hentries
  obtain ⟨-, hfound⟩ := Pointer.step_optional hentries hx
  rw [hnew] at hfound
  cases hfound

variable (hnew : Members.field? entries m.key = none) {u : Value}
include hnew

/-- With a member of the new key, a pointer to it would have led somewhere. -/
theorem field?_entries (h : Pointer.walk document ["components", "parameters"] = .ok u) :
    u.field? m.key = none := by
  by_contra hsome
  obtain ⟨w, hw⟩ := Option.ne_none_iff_exists'.1 hsome
  have hwalk : Pointer.walk document m.entryTokens = .ok w :=
    Pointer.walk_concat h (Pointer.step_of_field? hw)
  exact not_reached_entry hcomponents hentries hnew hwalk
    ⟨m.entryTokens, [], (List.append_nil _).symm, Way.names_keys m.entryTokens⟩

variable {tokens : List String} (h : Pointer.walk document tokens = .ok u)
include h

/-- Of what a pointer leads to the same is read with the entry, unless it leads to the entries and
the key is read there. -/
theorem readSame_entry
    (hunread : tokens = ["components", "parameters"] →
      m.key ∉ Members.shownWords ++ Members.readWords) :
    ∃ x, Pointer.walk (m.withEntry document) tokens = .ok x ∧
      (membersOf u).ReadSame (membersOf x) := by
  obtain ⟨x, hx, rfl | ⟨front, first, rest, hway, hfront, rfl⟩⟩ :=
    Pointer.walk_setAt (w := .map m.parameter) h (not_reached_entry hcomponents hentries hnew h)
  · exact ⟨x, hx, .refl _⟩
  refine ⟨_, hx, ?_⟩
  rcases front with _ | ⟨a, _ | ⟨b, _ | ⟨c, front⟩⟩⟩
  · obtain ⟨rfl, -⟩ := List.cons.inj hway
    exact readSame_other (by decide) _ _ _
  · obtain ⟨-, hway⟩ := List.cons.inj hway
    obtain ⟨rfl, -⟩ := List.cons.inj hway
    exact readSame_other (by decide) _ _ _
  · obtain ⟨rfl, hmore⟩ := List.cons.inj hway
    obtain ⟨rfl, hlast⟩ := List.cons.inj hmore
    obtain ⟨rfl, rfl⟩ := List.cons.inj hlast
    obtain rfl : tokens = ["components", "parameters"] := Way.Names.of_keys rfl hfront
    have hkey := hunread rfl
    rw [List.mem_append, not_or] at hkey
    have hnone := field?_entries hcomponents hentries hnew h
    refine readSame_key (fun word hword heq => hkey.1 (Atom.text.inj heq ▸ hword))
      (fun word hword heq => absurd (Atom.text.inj heq ▸ hword) hkey.2) ?_
    intro word _ hword
    obtain rfl := Atom.text.inj hword
    refine ⟨fun w hw => absurd hw (by simp [hnone]), fun w hw => ?_⟩
    rcases Value.setAt_key_cases u (.text m.key) [] (.map m.parameter) with ⟨ms, -, hset⟩ | hset
    · rw [hset] at hw
      have hfield := Members.field?_put_self ms m.key (.map m.parameter)
      exact ⟨_, (Option.some.inj (hfield.symm.trans hw)).symm⟩
    · rw [hset, hnone] at hw
      cases hw
  · obtain ⟨-, hmore⟩ := List.cons.inj hway
    obtain ⟨-, hmore⟩ := List.cons.inj hmore
    obtain ⟨-, hmore⟩ := List.cons.inj hmore
    simp at hmore

end

/-! ## The document after the move -/

/-- The members that are set on the way to a parameter are under words that are not read, but for
that of the path. -/
theorem readSame_inside (hmethods : ∀ method, m.owner = some method → method ∈ Operation.methods)
    {first : Way.Step} (hfirst : first ∈ m.insideWay) (u w : Value) (rest : Way) :
    (membersOf u).ReadSame (membersOf (u.setAt (first :: rest) w)) := by
  rcases List.mem_append.1 hfirst with howner | hfirst
  · rw [Option.mem_toList, Option.map_eq_some_iff] at howner
    obtain ⟨method, hmethod, rfl⟩ := howner
    have hunread : ∀ method ∈ Operation.methods,
        method ∉ Members.shownWords ++ Members.readWords ++ flatWords := by decide
    exact readSame_other (hunread method (hmethods method hmethod)) u w rest
  · rcases List.mem_pair.1 hfirst with rfl | rfl
    · exact readSame_other (by decide) u w rest
    · exact readSame_item u w m.index rest

/-- Between a path and its parameter stands at least one key, and none from which a schema is
read. -/
theorem exists_insideWay
    (hmethods : ∀ method, m.owner = some method → method ∈ Operation.methods) :
    ∃ key rest, m.insideWay = .key (.text key) :: rest ∧ key ∉ Schema.words := by
  have hunread : ∀ method ∈ Operation.methods, method ∉ Schema.words := by decide
  unfold insideWay
  cases howner : m.owner with
  | none => exact ⟨_, _, rfl, by decide⟩
  | some method => exact ⟨_, _, rfl, hunread method (hmethods method howner)⟩

/-- A mapping in which something is set under a key from which no schema is read. -/
theorem sameField_setAt {ms : Members} {key : String} {u : Value}
    (hget : Members.get? ms (.text key) = some u) (hkey : key ∉ Schema.words) (rest : Way)
    (w : Value) : ∃ ms', (Value.map ms).setAt (.key (.text key) :: rest) w = .map ms' ∧
      Members.SameField (some (.map ms)) (some (.map ms')) := by
  have hput : ∀ v, ms.put (.text key) v ≠ [] := by
    intro v hnil
    have hfield := Members.field?_put_self ms key v
    rw [hnil] at hfield
    cases hfield
  refine ⟨_, Value.setAt_map .., .mappings ?_ (hput _) fun word hword => ?_⟩
  · rintro rfl
    cases hget
  · refine Members.field?_put_of_ne (fun heq => hkey ?_) ..
    rwa [Atom.text.inj heq]

/-- Of the paths the same is read with the reference in the place of the parameter, unless the path
is shown: it is a mapping before and after, and is the same schema. -/
theorem readSame_path
    (hmethods : ∀ method, m.owner = some method → method ∈ Operation.methods) {paths : Value}
    (hpath : paths.at? (.key m.path :: m.insideWay) = some (.map m.parameter))
    (hshown : ∀ word ∈ Members.shownWords, m.path ≠ .text word) (w : Value) :
    (membersOf paths).ReadSame (membersOf (paths.setAt (.key m.path :: m.insideWay) w)) := by
  obtain ⟨ms, item, rfl, hitem, hinside⟩ := Value.at?_key hpath
  obtain ⟨key, later, hlater, hkey⟩ := exists_insideWay hmethods
  obtain ⟨pathItem, _, rfl, hget, -⟩ := Value.at?_key (hlater ▸ hinside)
  obtain ⟨pathItem', hset, hsame⟩ := sameField_setAt hget hkey later w
  have hbefore : ∀ word, m.path = .text word →
      (Value.map ms).field? word = some (.map pathItem) := by
    intro word hword
    rw [hword] at hitem
    exact hitem
  have hafter : ∀ word, m.path = .text word →
      ((Value.map ms).setAt (.key m.path :: m.insideWay) w).field? word =
        some (.map pathItem') := by
    intro word hword
    rw [Value.setAt_map, hitem, hword, hlater, Option.getD_some, hset]
    exact Members.field?_put_self ms word _
  refine readSame_key hshown (fun word _ hword => ?_) fun word _ hword => ⟨?_, ?_⟩
  · rw [hbefore word hword, hafter word hword]
    exact hsame
  · intro u hu
    exact ⟨pathItem, (Option.some.inj ((hbefore word hword).symm.trans hu)).symm⟩
  · intro u hu
    exact ⟨pathItem', (Option.some.inj ((hafter word hword).symm.trans hu)).symm⟩

section
variable {document x : Value} (hwritten : document.at? m.parameterWay = some (.map m.parameter))
  {tokens : List String} (h : Pointer.walk document tokens = .ok x)
include hwritten h

/-- Of what a pointer leads to the same is read with the reference in the place of the parameter,
unless it leads to the parameter or into it, or to the paths and the path is read there. -/
theorem readSame_reference
    (hmethods : ∀ method, m.owner = some method → method ∈ Operation.methods)
    (hreached : ¬ m.parameterWay.Reached tokens)
    (hunread : tokens = ["paths"] → ∀ word ∈ Members.shownWords, m.path ≠ .text word)
    (w : Value) :
    ∃ y, Pointer.walk (document.setAt m.parameterWay w) tokens = .ok y ∧
      (membersOf x).ReadSame (membersOf y) := by
  obtain ⟨y, hy, rfl | ⟨front, first, rest, hway, hfront, rfl⟩⟩ :=
    Pointer.walk_setAt (w := w) h hreached
  · exact ⟨y, hy, .refl _⟩
  refine ⟨_, hy, ?_⟩
  rcases front with _ | ⟨a, _ | ⟨b, front⟩⟩
  · obtain ⟨rfl, -⟩ := List.cons.inj hway
    exact readSame_other (by decide) _ _ _
  · obtain ⟨rfl, hmore⟩ := List.cons.inj hway
    obtain ⟨rfl, rfl⟩ := List.cons.inj hmore
    obtain rfl : tokens = ["paths"] := Way.Names.of_keys rfl hfront
    obtain ⟨paths, hpaths, hpath⟩ := Value.at?_append [.key (.text "paths")] hwritten
    obtain rfl : x = paths := Pointer.eq_of_names h hfront hpaths
    exact readSame_path hmethods hpath (hunread rfl) w
  · obtain ⟨-, hmore⟩ := List.cons.inj hway
    obtain ⟨-, hinside⟩ := List.cons.inj hmore
    have hfirst : first ∈ m.insideWay := by
      rw [show m.insideWay = front ++ first :: rest from hinside]
      exact List.mem_append_right _ (List.mem_cons_self ..)
    exact readSame_inside hmethods hfirst x w rest

end

/-! ## The documents after the move -/

/-- A document on which some way goes on is loaded. -/
theorem document?_of_at? {first : Way.Step} {rest : Way} {u : Value}
    (h : (r.document target).at? (first :: rest) = some u) :
    r.document? target = some (r.document target) := by
  have hgiven : (r.document target).isTrue = true := by
    cases first with
    | key key =>
      obtain ⟨ms, w, hms, hw, -⟩ := Value.at?_key h
      rw [hms]
      cases ms with
      | nil => cases hw
      | cons member ms => rfl
    | item index =>
      obtain ⟨items, w, hitems, hw, -⟩ := Value.at?_item h
      rw [hitems]
      cases items with
      | nil => cases hw
      | cons item items => rfl
  unfold Registry.document Value.orEmpty at hgiven ⊢
  split at hgiven
  · split_ifs at hgiven ⊢ with hw
    · assumption
    · cases hgiven
  · cases hgiven

namespace Possible

variable (hm : m.Possible r target)
include hm

/-- The paths are as they were when the entry is made. -/
theorem withEntry_at? (rest : Way) : (m.withEntry (r.document target)).at?
    (.key (.text "paths") :: rest) = (r.document target).at? (.key (.text "paths") :: rest) := by
  obtain ⟨components, entries, hcomponents, hentries, -⟩ := hm.fresh
  obtain ⟨root, hroot, -, hset⟩ := withEntry_eq (m := m) hcomponents hentries
  rw [hset, hroot]
  have hne : Atom.text "components" ≠ .text "paths" := by decide
  have hpaths := Members.field?_put_of_ne hne root (.map (components.put (.text "parameters")
    (.map (entries.put (.text m.key) (.map m.parameter)))))
  exact congrArg (Option.bind · _) hpaths

theorem withEntry_written :
    (m.withEntry (r.document target)).at? m.parameterWay = some (.map m.parameter) :=
  (hm.withEntry_at? _).trans hm.written

theorem document?_target : r.document? target = some (r.document target) :=
  document?_of_at? hm.written

/-- The components after the move are as before, but for the parameters: these have the entry. -/
theorem apply_eq : ∃ root root' components entries,
    r.document target = .map root ∧ m.apply (r.document target) = .map root' ∧
    Form.optionalMapping (Members.field? root "components") = .ok components ∧
    Members.field? root' "components" =
      some (.map (components.put (.text "parameters") (.map entries))) ∧
    Members.field? entries m.key = some (.map m.parameter) := by
  obtain ⟨components, entries, hcomponents, hentries, -⟩ := hm.fresh
  obtain ⟨root, hroot, hoptional, hset⟩ := withEntry_eq (m := m) hcomponents hentries
  have happly : m.apply (r.document target) = _ := (congrArg (Value.setAt · m.parameterWay
    (.map (Reference.mappingOf m.ref))) hset).trans
      (Value.setAt_map _ (.text "paths") (.key m.path :: m.insideWay) _)
  refine ⟨root, _, components, entries.put (.text m.key) (.map m.parameter), hroot, happly,
    hoptional, ?_, Members.field?_put_self ..⟩
  rw [Members.field?_put_of_ne (by decide), Members.field?_put_self]

theorem otherParameters : OtherParameters (r.document target) (m.apply (r.document target)) := by
  obtain ⟨root, root', components, entries, hroot, hroot', hoptional, hfield, -⟩ := hm.apply_eq
  refine ⟨components, components.put (.text "parameters") (.map entries), ?_, ?_, fun name hname =>
    Members.field?_put_of_ne (fun heq => hname (Atom.text.inj heq).symm) components _⟩
  · rw [hroot]
    exact hoptional
  · rw [hroot']
    change Form.optionalMapping (Members.field? root' "components") = _
    rw [hfield, Form.optionalMapping, Value.orEmpty_map, Form.mapping]

theorem document?_registry (key : String) : (m.registry r target).document? key =
    if target = key then some (m.apply (r.document target)) else r.document? key := by
  obtain ⟨-, root, -, -, -, hroot, -⟩ := hm.apply_eq
  unfold Registry.document? registry
  rw [Keyed.get?_put]
  split_ifs
  · rw [hroot]
    rfl
  · rfl

theorem document_registry :
    (m.registry r target).document target = m.apply (r.document target) := by
  obtain ⟨-, root, -, -, -, hroot, -⟩ := hm.apply_eq
  rw [Registry.document, hm.document?_registry, if_pos rfl, hroot, Value.orEmpty_map]

end Possible

/-! ## What the move keeps -/

section
variable (hm : m.Possible r target) (hunread : m.Unread r target)
  (hmethods : ∀ method, m.owner = some method → method ∈ Operation.methods)
include hm hunread hmethods

/-- A pointer that has led somewhere in the target still does, and not to the entry. -/
theorem walk_apply {tokens : List String} {u : Value}
    (hwalk : Pointer.walk (r.document target) tokens = .ok u)
    (hpoints : r.PointsAt target tokens) : tokens ≠ m.entryTokens ∧
      ∃ y, Pointer.walk (m.apply (r.document target)) tokens = .ok y ∧
        (membersOf u).ReadSame (membersOf y) := by
  obtain ⟨components, entries, hcomponents, hentries, hnew⟩ := hm.fresh
  refine ⟨fun heq => not_reached_entry hcomponents hentries hnew hwalk
    ⟨tokens, [], (List.append_nil _).symm, heq ▸ Way.names_keys m.entryTokens⟩, ?_⟩
  obtain ⟨x, hx, hsame⟩ := readSame_entry (m := m) hcomponents hentries hnew hwalk
    fun heq hread => hunread.key hread (heq ▸ hpoints)
  have hpath : tokens = ["paths"] → ∀ word ∈ Members.shownWords, m.path ≠ .text word :=
    fun heq word hword hpath => hunread.path word hword hpath (heq ▸ hpoints)
  obtain ⟨y, hy, hsame'⟩ := readSame_reference hm.withEntry_written hx hmethods
    (hm.apart _ hpoints) hpath (.map (Reference.mappingOf m.ref))
  exact ⟨y, hy, hsame.trans hsame'⟩

/-- A reference that has led somewhere leads there, to a value of which the same is read. -/
theorem revision_leads {ctx ctx' : Context} {ref : String} {located : Reference.Located}
    (hbefore : ctx.registry = r) (hafter : ctx'.registry = m.registry r target)
    (hcurrent : ctx'.current = ctx.current) (howns : ctx.Owns [ref])
    (hlocated : Reference.locate ctx ref = .ok located) :
    located.place ≠ (target, (Pointer.split m.ref).2) ∧
      ∃ node, Reference.locate ctx' ref = .ok { located with node } ∧
        (membersOf located.node).ReadSame (membersOf node) := by
  obtain ⟨document, hdocument, hwalk⟩ := Reference.locate_ok hlocated
  obtain ⟨hkey, hpointer⟩ := Reference.locate_parts hlocated
  obtain ⟨source, hsource, href⟩ := howns
  have hkey' : Reference.documentKey ctx' (Pointer.split ref).1 = .ok located.document := by
    rw [← hkey, Reference.documentKey, hcurrent, Reference.documentKey]
  have hfound : ∀ {other node}, ctx'.registry.document? located.document = some other →
      Pointer.walk other (Pointer.tokens located.pointer) = .ok node →
        Reference.locate ctx' ref = .ok { located with node } := fun hother hnode =>
    Reference.locate_of_walk (Prod.ext rfl hpointer.symm) hkey' hother hnode
  rw [hbefore] at hdocument
  rw [hafter, hm.document?_registry] at hfound
  by_cases htarget : target = located.document
  · have hpoints : r.PointsAt target (Pointer.tokens located.pointer) :=
      ⟨(ctx.current, source), hbefore ▸ hsource, ref, href (List.mem_cons_self ..),
        htarget ▸ hkey, by rw [hpointer]⟩
    rw [if_pos htarget] at hfound
    rw [← htarget, hm.document?_target] at hdocument
    obtain rfl := Option.some.inj hdocument
    obtain ⟨hne, y, hy, hsame⟩ := walk_apply hm hunread hmethods hwalk hpoints
    refine ⟨fun heq => hne ?_, y, hfound rfl hy, hsame⟩
    have hplace : located.pointer = (Pointer.split m.ref).2 := (Prod.ext_iff.1 heq).2
    rw [hplace, hm.tokens]
  · rw [if_neg htarget] at hfound
    exact ⟨fun heq => htarget (Prod.ext_iff.1 heq).1.symm, located.node, hfound hdocument hwalk,
      .refl _⟩

/-- The move leaves to each reference what is read at its end, and to the components their names. -/
theorem revision_keeps : (m.revision r target).Keeps := by
  have hothers := hm.otherParameters
  rw [← hm.document_registry] at hothers
  constructor
  case leads =>
    intro ctx ctx' ref located hbefore hafter hcurrent howns hlocated
    exact revision_leads hm hunread hmethods hbefore hafter hcurrent howns hlocated
  case schemas => exact hothers.schemasOf_eq
  case names =>
    intro ctx ctx' hbefore hafter htarget htarget' hoverrides
    refine OtherParameters.names_eq ?_ hoverrides
    rw [hbefore, hafter, htarget, htarget']
    exact hothers

end
end ParameterMove
end ApiTypes

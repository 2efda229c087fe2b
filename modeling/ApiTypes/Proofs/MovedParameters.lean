import ApiTypes.Proofs.ParameterMoves

/-!
# Parameters that are moved to the components

* `ParameterMove.locate_ref` : the reference that takes a parameter's place leads to it;
* `ParameterMove.rows_moved` : so the row that it has been in has the same parameters;
* `parameter_moved` : and the operation has the same types;
* `parameter_moved_container` : unless a reference ends at the component parameters or the paths
  themselves, and what the move sets there is read.
-/

namespace ApiTypes
namespace ParameterMove

open Revision

variable {m : ParameterMove} {r : Registry} {target : String}

/-! ## The reference -/

/-- The context that reads the entry. -/
def entryContext (m : ParameterMove) (r : Registry) (target : String) (overrides : Value) :
    Context :=
  (Context.start (m.registry r target) target overrides).along target
    [(target, (Pointer.split m.ref).2)]

theorem pair_start (m : ParameterMove) (r : Registry) (target : String) (overrides : Value) :
    (m.revision r target).Pair (.start r target overrides)
      (.start (m.registry r target) target overrides) where
  before := rfl
  after := rfl
  target := rfl
  target' := rfl
  current := rfl
  overrides := rfl
  visiting _ _ := Iff.rfl

/-- The entry is read like the parameter, but for one more place that is being followed. -/
theorem pair_entry (m : ParameterMove) (r : Registry) (target : String) (overrides : Value) :
    (m.revision r target).Pair (.start r target overrides)
      (m.entryContext r target overrides) where
  before := rfl
  after := rfl
  target := rfl
  target' := rfl
  current := rfl
  overrides := rfl
  visiting place hplace := by
    change place ∈ [] ++ [(target, (Pointer.split m.ref).2)] ↔ place ∈ []
    rw [List.nil_append, List.mem_singleton]
    exact ⟨fun heq => absurd heq hplace, fun hnil => absurd hnil (List.not_mem_nil)⟩

section
variable (hm : m.Possible r target) (overrides : Value)
include hm

theorem locate_ref : Reference.locate (.start (m.registry r target) target overrides) m.ref =
    .ok ⟨target, (Pointer.split m.ref).2, .map m.parameter⟩ := by
  obtain ⟨root, root', components, entries, -, hroot', -, hfield, hentry⟩ := hm.apply_eq
  refine Reference.locate_of_walk rfl hm.document
    ((hm.document?_registry target).trans (if_pos rfl)) ?_
  have hparameters := Members.field?_put_self components "parameters" (.map entries)
  rw [hm.tokens, hroot', entryTokens, Pointer.walk_of_field? (v := .map root') hfield,
    Pointer.walk_of_field? (v := .map _) hparameters,
    Pointer.walk_of_field? (v := .map entries) hentry]
  rfl

/-- The reference leads to the parameter. -/
theorem deref_ref : Operation.deref (.start (m.registry r target) target overrides)
    (Reference.mappingOf m.ref) = .ok ⟨m.parameter, m.entryContext r target overrides⟩ := by
  let ctx : Context := .start (m.registry r target) target overrides
  have hlocated : Reference.locate (ctx.reading target) m.ref = _ := locate_ref hm overrides
  have hnext : Reference.refOfValue? (.map m.parameter) = none := hm.inline
  have hfollow : Reference.follow ctx m.ref =
      .ok (m.parameter, m.entryContext r target overrides) := by
    rw [← Reference.along_nil ctx, Reference.follow, Reference.stepBound]
    change Reference.followFor (_ + 1) (ctx.along target []) m.ref = _
    rw [Reference.followFor_along, hlocated]
    dsimp only
    rw [if_neg (show _ ∉ ctx.visiting ++ [] from List.not_mem_nil), hnext]
    rfl
  change (Reference.follow ctx m.ref >>= _) = _
  rw [hfollow]
  rfl

/-- The document holds the references of what stands on some way in it. -/
theorem owns_of_at? {way : Way} {u : Value} (h : (r.document target).at? way = some u) :
    (Context.start r target overrides).Owns u.refs :=
  ⟨_, Keyed.mem_of_get? (Library.document?_eq_some.1 hm.document?_target).1, Value.refs_of_at? h⟩

/-- The parameter and the reference to it are the same parameter. -/
theorem sameRow_ref : (m.revision r target).SameRow (.start r target overrides)
    (.start (m.registry r target) target overrides) (.map m.parameter)
      (.map (Reference.mappingOf m.ref)) := by
  refine .some ?_
  rw [deref_ref hm]
  unfold Operation.deref
  rw [hm.inline]
  exact .ok ⟨.refl _, m.pair_entry r target overrides, owns_of_at? hm overrides hm.written⟩

end

/-! ## The rows -/

/-- Rows of the same parameters before and after the move. -/
abbrev SameRows (m : ParameterMove) (r : Registry) (target : String) (overrides : Value) :
    List Value → List Value → Prop :=
  List.Forall₂ ((m.revision r target).SameRow (.start r target overrides)
    (.start (m.registry r target) target overrides))

section
variable {overrides : Value} (hkeeps : (m.revision r target).Keeps) {ms : Members}
  (howns : (Context.start r target overrides).Owns (Value.map ms).refs)
include hkeeps howns

/-- A row that is as before has the same parameters. -/
theorem rows_kept (name : String) : Except.Keeps (m.SameRows r target overrides)
    (Form.optionalRow (ms.field? name)) (Form.optionalRow (ms.field? name)) := by
  intro rows hrows
  refine ⟨rows, hrows, List.forall₂_same.2 fun w hw => ?_⟩
  exact (m.pair_start r target overrides).sameRow hkeeps
    (howns.mono (Form.refs_of_optionalRow hrows hw))

/-- The row of the parameter has the same parameters, with the reference to it in its place. -/
theorem rows_moved (hm : m.Possible r target) {items : List Value}
    (hitem : items[m.index]? = some (.map m.parameter))
    (hfield : ms.field? "parameters" = some (.list items)) :
    m.SameRows r target overrides items
      (items.modify m.index fun _ => .map (Reference.mappingOf m.ref)) := by
  rw [SameRows, List.forall₂_iff_get]
  refine ⟨(List.length_modify ..).symm, fun i hi hi' => ?_⟩
  rw [List.get_eq_getElem, List.get_eq_getElem, List.getElem_modify]
  split_ifs with hindex
  · subst hindex
    rw [List.getElem?_eq_some_iff] at hitem
    rw [hitem.2]
    exact sameRow_ref hm overrides
  · refine (m.pair_start r target overrides).sameRow hkeeps (howns.mono ?_)
    exact List.Subset.trans (Value.refs_of_item (List.getElem_mem hi)) (Value.refs_field? hfield)

/-- A path or an operation with the reference in the place of its parameter. -/
theorem members_moved (hm : m.Possible r target)
    (hat : (Value.map ms).at? [.key (.text "parameters"), .item m.index] =
      some (.map m.parameter)) :
    ∃ ms', (Value.map ms).setAt [.key (.text "parameters"), .item m.index]
        (.map (Reference.mappingOf m.ref)) = .map ms' ∧
      Except.Keeps (m.SameRows r target overrides) (Form.optionalRow (ms.field? "parameters"))
        (Form.optionalRow (Members.field? ms' "parameters")) ∧
      ∀ name, name ≠ "parameters" → Members.field? ms' name = ms.field? name := by
  obtain ⟨_, _, heq, hget, hlist⟩ := Value.at?_key hat
  obtain rfl := Value.map.inj heq
  obtain ⟨items, _, rfl, hitem, hend⟩ := Value.at?_item hlist
  obtain rfl := Option.some.inj hend
  have hrow : ∀ vs, Form.optionalRow (some (.list vs)) = .ok vs := by
    intro vs
    cases vs <;> rfl
  refine ⟨_, Value.setAt_map .., ?_, fun name hname => Members.field?_put_of_ne
    (fun heq => hname (Atom.text.inj heq).symm) ..⟩
  have hfield : ms.field? "parameters" = some (.list items) := hget
  rw [Members.field?_put_self, hfield, hrow, hget]
  change Except.Keeps _ _ (Form.optionalRow (some (.list (items.modify m.index _))))
  rw [hrow]
  exact .ok (rows_moved hkeeps howns hm hitem hfield)

/-- A path with the reference in the place of a parameter, of its own or of one of its operations.
Both have the same parameters, and the operation is the same otherwise. -/
theorem path_moved (hm : m.Possible r target) {method : String} {operation : Members}
    (hoperation : ms.field? method = some (.map operation)) (hmethod : method ∈ Operation.methods)
    (howner : ∀ other, m.owner = some other → other = method)
    (hat : (Value.map ms).at? m.insideWay = some (.map m.parameter)) :
    ∃ ms' operation', (Value.map ms).setAt m.insideWay (.map (Reference.mappingOf m.ref)) =
        .map ms' ∧
      Members.field? ms' method = some (.map operation') ∧
      Except.Keeps (m.SameRows r target overrides) (Form.optionalRow (ms.field? "parameters"))
        (Form.optionalRow (Members.field? ms' "parameters")) ∧
      Except.Keeps (m.SameRows r target overrides)
        (Form.optionalRow (operation.field? "parameters"))
        (Form.optionalRow (Members.field? operation' "parameters")) ∧
      ∀ name, name ≠ "parameters" → Members.field? operation' name = operation.field? name := by
  have hne : method ≠ "parameters" := by
    rintro rfl
    exact absurd hmethod (by decide)
  have hown := howns.mono (Value.refs_field? hoperation)
  unfold insideWay at hat ⊢
  cases hlists : m.owner with
  | none =>
    rw [hlists] at hat
    obtain ⟨ms', hmoved, hrows, hothers⟩ := members_moved hkeeps howns hm hat
    exact ⟨ms', operation, hmoved, (hothers method hne).trans hoperation, hrows,
      rows_kept hkeeps hown "parameters", fun _ _ => rfl⟩
  | some other =>
    obtain rfl := howner other hlists
    rw [hlists] at hat
    change (Value.map ms).at? [.key (.text other), .key (.text "parameters"), .item m.index] = _
      at hat
    obtain ⟨_, _, heq, hget, hinside⟩ := Value.at?_key hat
    obtain rfl := Value.map.inj heq
    obtain rfl := Option.some.inj (hoperation.symm.trans hget)
    obtain ⟨operation', hmoved, hrows, hothers⟩ := members_moved hkeeps hown hm hinside
    have hset := Value.setAt_map ms (.text other) [.key (.text "parameters"), .item m.index]
      (.map (Reference.mappingOf m.ref))
    rw [hget, Option.getD_some, hmoved] at hset
    refine ⟨_, operation', hset, Members.field?_put_self .., ?_, hrows, hothers⟩
    rw [Members.field?_put_of_ne fun heq => hne (Atom.text.inj heq)]
    exact rows_kept hkeeps howns "parameters"

end
end ParameterMove

/-! ## Operations -/

/-- An operation whose types can be made has the same types when an inline parameter of it or of its
path is moved to the component parameters and referred to. -/
theorem parameter_moved {m : ParameterMove} {r : Registry} {target : String}
    (hm : m.Possible r target) (hunread : m.Unread r target) {method : String}
    (hmethod : method ∈ Operation.methods) (howner : ∀ other, m.owner = some other → other = method)
    {pathItem : Members} {operation overrides : Value} {op : Operation}
    (hpathItem : (r.document target).at? m.pathWay = some (.map pathItem))
    (hoperation : pathItem.field? method = some operation)
    (h : (Operation.make (.start r target overrides) method m.path pathItem operation).outcome =
      .ok op) :
    ∃ (pathItem' : Members) (operation' : Value),
      (m.apply (r.document target)).at? m.pathWay = some (.map pathItem') ∧
      pathItem'.field? method = some operation' ∧
      (Operation.make (.start (m.registry r target) target overrides) method m.path pathItem'
        operation').outcome = .ok op := by
  have hkeeps : (m.revision r target).Keeps :=
    ParameterMove.revision_keeps hm hunread fun other hother => howner other hother ▸ hmethod
  obtain ⟨own, hown, -⟩ := Timed.outcome_bind_ok.1 h
  obtain rfl := Form.mapping_ok.1 hown
  have howns := ParameterMove.owns_of_at? hm overrides hpathItem
  -- the parameter stands in the path
  obtain ⟨_, hbefore, hinside⟩ := Value.at?_append m.pathWay hm.written
  obtain rfl := Option.some.inj (hpathItem.symm.trans hbefore)
  obtain ⟨pathItem', own', hmoved, hfield, hshared, hrows, hothers⟩ :=
    ParameterMove.path_moved hkeeps howns hm hoperation hmethod howner hinside
  have hafter : (m.apply (r.document target)).at? m.pathWay = some (.map pathItem') :=
    hmoved ▸ Value.at?_setAt ((hm.withEntry_at? _).trans hpathItem) _ _
  have hmembers : ∀ word ∈ ["operationId", "requestBody", "responses", "summary"],
      Members.field? own' word = Members.field? own word := by
    intro word hword
    refine hothers word ?_
    rintro rfl
    exact absurd hword (by decide)
  obtain ⟨_, hop, rfl⟩ := (m.pair_start r target overrides).make hkeeps method m.path
    (howns.mono (Value.refs_field? hoperation)) hshared hrows hmembers op h
  exact ⟨pathItem', .map own', hafter, hfield, hop⟩

/-- A parameter is apart if no reference leads as far into the paths. -/
theorem ParameterMove.not_reached (m : ParameterMove) {r : Registry} {target : String}
    (h : ∀ e ∈ r, ∀ ref ∈ e.2.refs, (Pointer.tokens (Pointer.split ref).2).head? = some "paths" →
      (Pointer.tokens (Pointer.split ref).2).length < m.parameterWay.length) :
    ∀ tokens, r.PointsAt target tokens → ¬ m.parameterWay.Reached tokens := by
  rintro _ ⟨e, he, ref, href, -, rfl⟩ hreached
  obtain ⟨more, hmore⟩ := hreached.exists_cons
  have hshort := h e he ref href (by rw [hmore, List.head?_cons])
  obtain ⟨front, rest, htokens, hfront⟩ := hreached
  have hlength := hfront.length_eq
  rw [htokens, List.length_append] at hshort
  omega

/-- A path with a reference to a component parameter, and an operation with an inline parameter. -/
def sortGet : Value :=
  let order : Value := .map [(.text "enum", .list [.text "asc", .text "desc"])]
  .map [(.text "parameters", .list [
    .map [(.text "name", .text "sort"), (.text "schema", order)]])]

def sortPath : Members :=
  [(.text "parameters", .list [.map [(.text "$ref", .text "#/components/parameters/limit")]]),
    (.text "get", sortGet)]

def sortRegistry : Registry :=
  [("/api.json", .map [
    (.text "paths", .map [(.text "/pets", .map sortPath)]),
    (.text "components", .map [(.text "parameters", .map [
      (.text "limit", .map [(.text "name", .text "limit")])])])])]

def sortMove : ParameterMove where
  path := .text "/pets"
  owner := some "get"
  index := 0
  parameter := [(.text "name", .text "sort"),
    (.text "schema", .map [(.text "enum", .list [.text "asc", .text "desc"])])]
  key := "sort"
  ref := "#/components/parameters/sort"

theorem parameter_moved_sort :
    ∃ op pathItem' operation',
      (sortMove.apply (sortRegistry.document "/api.json")).at? sortMove.pathWay =
        some (.map pathItem') ∧
      Members.field? pathItem' "get" = some operation' ∧
      (Operation.make (.start (sortMove.registry sortRegistry "/api.json") "/api.json" (.map []))
        "get" (.text "/pets") pathItem' operation').outcome = .ok op ∧
      op.declarations.map Declaration.name = ["GetPetsParamsSort", "GetPetsParams"] := by
  have hm : sortMove.Possible sortRegistry "/api.json" := {
    written := rfl
    inline := rfl
    fresh := ⟨_, _, rfl, rfl, rfl⟩
    document := rfl
    tokens := by decide
    apart := sortMove.not_reached (by decide) }
  have hunread : sortMove.Unread sortRegistry "/api.json" := {
    path := by
      intro word hword heq
      obtain rfl := Atom.text.inj heq
      exact absurd hword (by decide)
    key := fun hread => absurd hread (by decide) }
  have hpath : (sortRegistry.document "/api.json").at? sortMove.pathWay =
      some (.map sortPath) := rfl
  have hget : Members.field? sortPath "get" = some sortGet := rfl
  obtain ⟨op, hop, hnames⟩ := Except.exists_of_any
    (x := (Operation.make (.start sortRegistry "/api.json" (.map [])) "get" (.text "/pets") sortPath
      sortGet).outcome)
    (p := fun op => op.declarations.map Declaration.name = ["GetPetsParamsSort", "GetPetsParams"])
    (by decide +kernel)
  obtain ⟨pathItem', operation', hpath', hget', hmake⟩ := parameter_moved hm hunread (by decide)
    (fun _ howner => (Option.some.inj howner).symm) hpath hget hop
  exact ⟨op, pathItem', operation', hpath', hget', hmake, of_decide_eq_true hnames⟩

/-! ## References to what holds the parameters or the paths -/

/-- A move is possible, and an operation has types before it and other ones after it. -/
def ParameterMove.Changes (m : ParameterMove) (r : Registry) (target method : String)
    (overrides : Value) : Prop :=
  m.Possible r target ∧
    ∃ (pathItem pathItem' : Members) (operation operation' : Value) (op op' : Operation),
      (r.document target).at? m.pathWay = some (.map pathItem) ∧
      pathItem.field? method = some operation ∧
      (m.apply (r.document target)).at? m.pathWay = some (.map pathItem') ∧
      Members.field? pathItem' method = some operation' ∧
      (Operation.make (.start r target overrides) method m.path pathItem operation).outcome =
        .ok op ∧
      (Operation.make (.start (m.registry r target) target overrides) method m.path pathItem'
        operation').outcome = .ok op' ∧
      op' ≠ op

/-- Two operations that can be made are different if their texts are. -/
theorem Operation.exists_ne {x y : Except Fault Operation}
    (h : (x.toOption.any fun op => y.toOption.any fun op' =>
      op'.declarations.map (·.model.render) ≠ op.declarations.map (·.model.render)) = true) :
    ∃ op op', x = .ok op ∧ y = .ok op' ∧ op' ≠ op := by
  obtain ⟨op, hop, h⟩ := Except.exists_of_any h
  obtain ⟨op', hop', hne⟩ := Except.exists_of_any h
  refine ⟨op, op', hop, hop', ?_⟩
  rintro rfl
  exact of_decide_eq_true hne rfl

/-- A move of a parameter in a document that refers to the paths or to the component parameters
themselves. -/
structure ContainerMove where
  path : String
  key : String
  /-- The pointer to what holds the paths or the parameters. -/
  container : String
  /-- A parameter that refers to it, or one whose schema does. -/
  reader : Members
  overrides : Value

namespace ContainerMove

/-- The parameter to be moved. -/
def parameter (c : ContainerMove) : Members :=
  [(.text "name", .text c.key), (.text "type", .text "string")]

/-- The operation with the parameter, or with what takes its place. -/
def operation (c : ContainerMove) (parameter : Members) : Value :=
  .map [(.text "parameters", .list [.map c.reader, .map parameter])]

def pathItem (c : ContainerMove) (parameter : Members) : Members :=
  [(.text "get", c.operation parameter)]

/-- What holds the paths and what holds the component parameters have a name, as parameters do. -/
def registry (c : ContainerMove) : Registry :=
  let name : Atom × Value := (.text "name", .text "filter")
  let all : Value := .map (Reference.mappingOf c.container)
  [("/api.json", .map [
    (.text "paths", .map [name, (.text c.path, .map (c.pathItem c.parameter))]),
    (.text "components", .map [
      (.text "schemas", .map [(.text "all", all)]),
      (.text "parameters", .map [name])])])]

def move (c : ContainerMove) : ParameterMove where
  path := .text c.path
  owner := some "get"
  index := 1
  parameter := c.parameter
  key := c.key
  ref := "#/components/parameters/" ++ c.key

/-- The parameters of the operation refer to what holds the parameters or the paths. -/
def ofParameter (container path key : String) : ContainerMove where
  path
  key
  container
  reader := Reference.mappingOf container
  overrides := .map []

/-- A schema refers there. A suffix makes a type of two of its name, so that it is declared. -/
def ofSchema (container path key : String) : ContainerMove where
  path
  key
  container
  reader := [(.text "name", .text "filter"),
    (.text "schema", .map (Reference.mappingOf "#/components/schemas/all"))]
  overrides := .map [(.text "components", .map [
    (.text "schemas", .map [(.text "suffix", .text " | string")])])]

/-- The move is possible, and the operation has other types after it. -/
def Shows (c : ContainerMove) : Prop :=
  c.move.Changes c.registry "/api.json" "get" c.overrides

variable (c : ContainerMove)

theorem shows (hm : c.move.Possible c.registry "/api.json")
    (hbefore : (c.registry.document "/api.json").at? c.move.pathWay =
      some (.map (c.pathItem c.parameter)))
    (hafter : (c.move.apply (c.registry.document "/api.json")).at? c.move.pathWay =
      some (.map (c.pathItem (Reference.mappingOf c.move.ref))))
    (hmake : ((Operation.make (.start c.registry "/api.json" c.overrides) "get" c.move.path
      (c.pathItem c.parameter) (c.operation c.parameter)).outcome.toOption.any fun op =>
      (Operation.make (.start (c.move.registry c.registry "/api.json") "/api.json" c.overrides)
        "get" c.move.path (c.pathItem (Reference.mappingOf c.move.ref))
        (c.operation (Reference.mappingOf c.move.ref))).outcome.toOption.any fun op' =>
      op'.declarations.map (·.model.render) ≠ op.declarations.map (·.model.render)) = true) :
    c.Shows := by
  obtain ⟨op, op', hop, hop', hne⟩ := Operation.exists_ne hmake
  exact ⟨hm, _, _, _, _, op, op', hbefore, rfl, hafter, rfl, hop, hop', hne⟩

end ContainerMove

/-- The new entry is read as a member of what a reference to the component parameters leads to, and
a path with the reference in it as a member of what a reference to the paths leads to. -/
theorem parameter_moved_container :
    (ContainerMove.ofParameter "#/components/parameters" "/pets" "required").Shows ∧
    (ContainerMove.ofParameter "#/components/parameters" "/pets" "schema").Shows ∧
    (ContainerMove.ofParameter "#/components/parameters" "/pets" "description").Shows ∧
    (ContainerMove.ofParameter "#/components/parameters" "/pets" "deprecated").Shows ∧
    (ContainerMove.ofSchema "#/components/parameters" "/pets" "summary").Shows ∧
    (ContainerMove.ofParameter "#/paths" "description" "sort").Shows ∧
    (ContainerMove.ofSchema "#/paths" "summary" "sort").Shows := by
  refine ⟨?_, ?_, ?_, ?_, ?_, ?_, ?_⟩
  all_goals
    refine ContainerMove.shows _ ⟨rfl, rfl, ⟨_, _, rfl, rfl, rfl⟩, rfl, ?_, ?_⟩ rfl rfl ?_
    · decide
    · exact ParameterMove.not_reached _ (by decide)
    · decide +kernel

end ApiTypes

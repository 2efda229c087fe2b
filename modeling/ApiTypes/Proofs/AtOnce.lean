import ApiTypes.Definition
import ApiTypes.Operation
import ApiTypes.Proofs.Failures
import ApiTypes.Proofs.LoopEnds

/-!
# Failures at once

* `Timed.AtOnce` : an outcome that is there in the round in which the computation starts;
* `Schema.IsFlat` : no object with properties stands in a schema;
* `Resolve.FailsAtOnce` : the type of a schema fails before the members of any object are started
  together (`Resolve.failsAtOnce_iff` : it fails in the round in which it starts);
* `FirstAtOnce` : the first of some items that fails at once;
* `Timed.GatherFails` : how computations that are started together fail, also on a loop;
* `failure_at_once` : the members of an object, the parameters of a query and the entries of a
  document fail as the first of them that fails at once.
-/

namespace ApiTypes

/-! ## Outcomes that are there at once -/

namespace Timed

variable {ε α β : Type} {e : ε}

/-- A computation has an outcome in the round in which it starts. -/
structure AtOnce (x : Timed ε α) (outcome : Except ε α) : Prop where
  outcome : x.outcome = outcome
  rounds : x.course.rounds = 0

theorem atOnce_ofExcept {x y : Except ε α} : (ofExcept x).AtOnce y ↔ x = y :=
  ⟨fun h => h.outcome, fun h => ⟨h, rfl⟩⟩

theorem rounds_bind {x : Timed ε α} {f : α → Timed ε β} {a : α} (h : x.outcome = .ok a) :
    (x >>= f).course.rounds = x.course.rounds + (f a).course.rounds := by
  change (Timed.bind x f).course.rounds = _
  rw [Timed.bind, h]
  rfl

/-- A sequence fails at once if its first part does, or if that has a value at once and what follows
fails at once. -/
theorem atOnce_bind_error {x : Timed ε α} {f : α → Timed ε β} :
    (x >>= f).AtOnce (.error e) ↔
      x.AtOnce (.error e) ∨ ∃ a, x.AtOnce (.ok a) ∧ (f a).AtOnce (.error e) := by
  cases hx : x.outcome with
  | error e' =>
    have hbind : x >>= f = ⟨.error e', x.course⟩ := by
      change Timed.bind x f = _
      rw [Timed.bind, hx]
    rw [hbind]
    constructor
    · rintro ⟨houtcome, hrounds⟩
      exact .inl ⟨hx.trans (congrArg Except.error (Except.error.inj houtcome)), hrounds⟩
    · rintro (⟨houtcome, hrounds⟩ | ⟨a, ha, -⟩)
      · exact ⟨congrArg Except.error (Except.error.inj (hx.symm.trans houtcome)), hrounds⟩
      · cases hx.symm.trans ha.outcome
  | ok a =>
    constructor
    · rintro ⟨houtcome, hrounds⟩
      rw [outcome_bind, hx] at houtcome
      rw [rounds_bind hx] at hrounds
      exact .inr ⟨a, ⟨hx, by omega⟩, houtcome, by omega⟩
    · rintro (h | ⟨b, hb, houtcome, hrounds⟩)
      · cases hx.symm.trans h.outcome
      · obtain rfl : a = b := Except.ok.inj (hx.symm.trans hb.outcome)
        refine ⟨?_, by rw [rounds_bind hx, hb.rounds, hrounds]⟩
        rwa [outcome_bind, hx]

theorem atOnce_map_error {x : Timed ε α} {f : α → β} :
    (f <$> x).AtOnce (.error e) ↔ x.AtOnce (.error e) := by
  refine atOnce_bind_error.trans (or_iff_left ?_)
  rintro ⟨a, -, h⟩
  cases h.outcome

/-- A sequence whose last part succeeds at once fails at once as its first part does. -/
theorem atOnce_bind_pure {x : Timed ε α} {f : α → β} :
    (x >>= fun a => pure (f a)).AtOnce (.error e) ↔ x.AtOnce (.error e) :=
  atOnce_map_error

theorem atOnce_mapError {x : Timed ε α} {f : ε → ε} :
    (x.mapError f).AtOnce (.error e) ↔ ∃ e', x.AtOnce (.error e') ∧ f e' = e := by
  constructor
  · rintro ⟨houtcome, hrounds⟩
    cases hx : x.outcome with
    | ok a => simp [mapError, hx, Except.mapError] at houtcome
    | error e' =>
      refine ⟨e', ⟨hx, hrounds⟩, ?_⟩
      simpa [mapError, hx, Except.mapError] using houtcome
  · rintro ⟨e', ⟨houtcome, hrounds⟩, rfl⟩
    exact ⟨by rw [mapError, houtcome]; rfl, hrounds⟩

/-- Computations that are started together take time, if there are any. -/
theorem eq_nil_of_rounds_all {xs : List (Timed ε α)} (h : (all xs).course.rounds = 0) :
    xs = [] := by
  have htogether : ∀ failure,
      (Course.together (xs.map (·.course)) failure).rounds = 0 → xs = [] := by
    intro failure h
    unfold Course.together at h
    split at h
    · rename_i hempty
      simpa using hempty
    · exact absurd h (Nat.succ_ne_zero _)
  unfold all at h
  split at h
  · exact htogether _ h
  · exact htogether _ h

end Timed

/-! ## Schemas without objects -/

namespace Schema

/-- No object with properties stands in a schema. -/
def IsFlat (s : Schema) : Prop :=
  ∀ raw properties, .object raw properties ∈ s.inside → properties = []

theorem mem_insideAll {t : Schema} {schemas : List Schema} :
    t ∈ insideAll schemas ↔ ∃ s ∈ schemas, t ∈ s.inside := by
  induction schemas with
  | nil => simp [insideAll]
  | cons s rest ih => simp [insideAll, inside, ih, or_assoc]

/-- A schema that is no object is flat if the schemas below it are. -/
theorem isFlat_iff_beneath {s : Schema} (h : ∀ raw properties, s ≠ .object raw properties) :
    s.IsFlat ↔ ∀ raw properties, .object raw properties ∈ s.beneath → properties = [] := by
  refine forall₂_congr fun raw properties => ?_
  rw [inside, List.mem_cons, or_iff_right fun heq => h raw properties heq.symm]

theorem isFlat_array {raw : Members} {items : Schema} :
    (array raw (some items)).IsFlat ↔ items.IsFlat := by
  rw [isFlat_iff_beneath (by simp), beneath]
  rfl

theorem isFlat_record {raw : Members} {values : Schema} :
    (record raw values).IsFlat ↔ values.IsFlat := by
  rw [isFlat_iff_beneath (by simp), beneath]
  rfl

theorem isFlat_composition {raw : Members} {keyword : Keyword} {parts : List Schema} :
    (composition raw keyword parts).IsFlat ↔ ∀ s ∈ parts, s.IsFlat := by
  rw [isFlat_iff_beneath (by simp), beneath]
  constructor
  · intro h s hs raw properties hmem
    exact h raw properties (mem_insideAll.2 ⟨s, hs, hmem⟩)
  · intro h raw properties hmem
    obtain ⟨s, hs, hmem⟩ := mem_insideAll.1 hmem
    exact h s hs raw properties hmem

/-- An object is flat if it has no properties. -/
theorem isFlat_object {raw : Members} {properties : List (Atom × Schema)} :
    (object raw properties).IsFlat ↔ properties = [] := by
  constructor
  · intro h
    exact h raw properties (List.mem_cons_self ..)
  · rintro rfl raw' properties' h
    rw [inside, beneath, insideProperties, List.mem_singleton] at h
    cases h
    rfl

end Schema

namespace Resolve

variable {ctx : Context}

/-! ## Types that are there at once -/

theorem rounds_parts {name : Option String} {count : Nat} {schemas : List Schema}
    {types : List Resolved}
    (h : PartTypes (fun s name r => (shape ctx s name).outcome = .ok r ∧
      ((shape ctx s name).course.rounds = 0 ↔ s.IsFlat)) name count schemas types) :
    (parts ctx name count schemas).course.rounds = 0 ↔ ∀ s ∈ schemas, s.IsFlat := by
  induction h with
  | nil =>
    rw [parts]
    exact iff_of_true rfl (by simp)
  | @cons count s r schemas types hs hrest ih =>
    have hparts := parts_of_partTypes (hrest.imp fun _ _ _ h => h.1)
    rw [parts, Timed.rounds_bind hs.1, List.forall_mem_cons, ← hs.2, ← ih]
    refine Nat.add_eq_zero_iff.trans (and_congr_right fun _ => iff_of_eq ?_)
    exact congrArg (· = 0) (Timed.rounds_bind hparts)

/-- A schema without others below it that is no object is flat, and its type is there at once. -/
theorem flat_leaf {s : Schema} {name : Option String} {r : Resolved}
    (hshape : shape ctx s name = .ofExcept (.ok r)) (hbeneath : s.beneath = [])
    (hobject : ∀ raw properties, s ≠ .object raw properties) :
    (shape ctx s name).outcome = .ok r ∧ ((shape ctx s name).course.rounds = 0 ↔ s.IsFlat) := by
  rw [hshape]
  refine ⟨rfl, iff_of_true rfl ((Schema.isFlat_iff_beneath hobject).2 fun raw properties h => ?_)⟩
  rw [hbeneath] at h
  cases h

theorem eq_nil_of_rounds_members {properties : List (Atom × Schema)} {names : List (Option String)}
    (hlength : names.length = (properties.map fun p => Value.atom p.1).length)
    (h : (Timed.all (members ctx properties names)).course.rounds = 0) : properties = [] := by
  have hnone := Timed.eq_nil_of_rounds_all h
  match properties, names with
  | [], _ => rfl
  | _ :: _, [] => simp at hlength
  | _ :: _, _ :: _ =>
    rw [members] at hnone
    cases hnone

/-- The type of a schema is there at once just when no object with properties stands in it. -/
theorem flatLaws (ctx : Context) : ShapeLaws ctx fun s name r =>
    (shape ctx s name).outcome = .ok r ∧ ((shape ctx s name).course.rounds = 0 ↔ s.IsFlat) where
  reference raw ref name r h := flat_leaf (by rw [shape, h]) (by rw [Schema.beneath]) (by simp)
  primitive raw name := flat_leaf (by rw [shape]; rfl) (by rw [Schema.beneath]) (by simp)
  enum raw values name := flat_leaf (by rw [shape]; rfl) (by rw [Schema.beneath]) (by simp)
  bare raw name := flat_leaf (by rw [shape]; rfl) (by rw [Schema.beneath]) (by simp)
  openRecord raw name := flat_leaf (by rw [shape]; rfl) (by rw [Schema.beneath]) (by simp)
  anyArray raw name := flat_leaf (by rw [shape]; rfl) (by rw [Schema.beneath]) (by simp)
  array raw items name r h := by
    refine ⟨(outcomeLaws ctx).array raw items name r h.1, ?_⟩
    rw [shape, Timed.rounds_bind h.1, Schema.isFlat_array, ← h.2]
    rfl
  record raw values name r h := by
    refine ⟨(outcomeLaws ctx).record raw values name r h.1, ?_⟩
    rw [shape, Timed.rounds_bind h.1, Schema.isFlat_record, ← h.2]
    rfl
  object raw properties name names types r hnames htypes h := by
    have htypes := htypes.imp fun _ _ _ h => h.1
    refine ⟨(outcomeLaws ctx).object raw properties name names types r hnames htypes h, ?_⟩
    have hstart :
        (Timed.ofExcept (childNames ctx name (properties.map fun p => .atom p.1))).outcome =
          .ok names := hnames
    have hall : (Timed.all (members ctx properties names)).outcome = .ok types :=
      Timed.outcome_all_ok.2 (members_of_memberTypes htypes)
    rw [shape, Timed.rounds_bind hstart, Timed.rounds_bind hall, Schema.isFlat_object]
    constructor
    · intro hrounds
      have htogether : (Timed.all (members ctx properties names)).course.rounds = 0 := by omega
      exact eq_nil_of_rounds_members (childNames_length hnames) htogether
    · rintro rfl
      rw [members]
      · rfl
      · simp
  composition raw keyword schemas name types h := by
    have hparts := h.imp fun _ _ _ h => h.1
    refine ⟨(outcomeLaws ctx).composition raw keyword schemas name types hparts, ?_⟩
    rw [shape, Timed.rounds_bind (parts_of_partTypes hparts), Schema.isFlat_composition]
    exact rounds_parts h

theorem shape_atOnce_ok {s : Schema} {name : Option String} {r : Resolved} :
    (shape ctx s name).AtOnce (.ok r) ↔ (shape ctx s name).outcome = .ok r ∧ s.IsFlat := by
  constructor
  · rintro ⟨houtcome, hrounds⟩
    exact ⟨houtcome, ((flatLaws ctx).shape s name r houtcome).2.1 hrounds⟩
  · rintro ⟨houtcome, hflat⟩
    exact ⟨houtcome, ((flatLaws ctx).shape s name r houtcome).2.2 hflat⟩

/-! ## Types that fail at once -/

mutual

/-- The type of a schema fails before members of an object are started together: a reference fails,
a type is no key, names for members cannot be made, or what an array, a record or a composition is
made of fails so. -/
inductive FailsAtOnce (ctx : Context) : Schema → Option String → Fault → Prop where
  | reference {raw : Members} {ref : String} {name : Option String} {e : Fault} :
      Resolve.reference ctx ref = .error e → FailsAtOnce ctx (.reference raw ref) name e
  | malformed (raw : Members) (name : Option String) :
      FailsAtOnce ctx (.malformed raw) name (.defect .notKey)
  | items {raw : Members} {items : Schema} {name : Option String} {e : Fault} :
      FailsAtOnce ctx items (itemName name) e → FailsAtOnce ctx (.array raw (some items)) name e
  | values {raw : Members} {values : Schema} {name : Option String} {e : Fault} :
      FailsAtOnce ctx values name e → FailsAtOnce ctx (.record raw values) name e
  | names {raw : Members} {properties : List (Atom × Schema)} {name : Option String} {e : Fault} :
      childNames ctx name (properties.map fun p => .atom p.1) = .error e →
      FailsAtOnce ctx (.object raw properties) name e
  | part {raw : Members} {keyword : Keyword} {schemas : List Schema} {name : Option String}
      {e : Fault} : PartFailsAtOnce ctx (partName name keyword) 0 schemas e →
      FailsAtOnce ctx (.composition raw keyword schemas) name e

/-- A part of a composition fails so, and those before it have types, without an object that has
properties. -/
inductive PartFailsAtOnce (ctx : Context) :
    Option String → Nat → List Schema → Fault → Prop where
  | here {name : Option String} {count : Nat} {s : Schema} {rest : List Schema} {e : Fault} :
      FailsAtOnce ctx s (numbered name count) e → PartFailsAtOnce ctx name count (s :: rest) e
  | later {name : Option String} {count : Nat} {s : Schema} {rest : List Schema} {r : Resolved}
      {e : Fault} :
      (shape ctx s (numbered name count)).outcome = .ok r → s.IsFlat →
      PartFailsAtOnce ctx name
        (nextCount count (hoist (numbered name count) true (finish s r))) rest e →
      PartFailsAtOnce ctx name count (s :: rest) e

end

/-- An object whose members have names does not fail at once. -/
theorem not_atOnce_object {raw : Members} {properties : List (Atom × Schema)}
    {names : List (Option String)} {e : Fault}
    (hlength : names.length = (properties.map fun p => Value.atom p.1).length) :
    ¬ (Timed.all (members ctx properties names) >>= fun types =>
      Timed.ofExcept (objectOf raw properties types)).AtOnce (.error e) := by
  intro h
  rcases Timed.atOnce_bind_error.1 h with h | ⟨types, htypes, h⟩
  · obtain rfl := eq_nil_of_rounds_members hlength h.rounds
    have houtcome := h.outcome
    rw [members] at houtcome
    · cases houtcome
    · simp
  · obtain rfl := eq_nil_of_rounds_members hlength htypes.rounds
    have houtcome := h.outcome
    rw [Timed.outcome_ofExcept, objectOf, membersOf] at houtcome
    · cases houtcome
    · simp

mutual

/-- To fail so is to fail in the round in which the computation starts. -/
theorem failsAtOnce_iff : ∀ (s : Schema) (name : Option String) (e : Fault),
    FailsAtOnce ctx s name e ↔ (shape ctx s name).AtOnce (.error e)
  | .reference raw ref, name, e => by
    rw [shape, Timed.atOnce_ofExcept]
    exact ⟨fun | .reference h => h, .reference⟩
  | .malformed raw, name, e => by
    rw [shape, Timed.atOnce_ofExcept]
    constructor
    · rintro ⟨⟩
      rfl
    · intro h
      cases h
      exact .malformed raw name
  | .primitive raw, name, e => by
    rw [shape]
    exact iff_of_false nofun fun h => nomatch h.outcome
  | .enum raw values, name, e => by
    rw [shape]
    exact iff_of_false nofun fun h => nomatch h.outcome
  | .bare raw, name, e => by
    rw [shape]
    exact iff_of_false nofun fun h => nomatch h.outcome
  | .openRecord raw, name, e => by
    rw [shape]
    exact iff_of_false nofun fun h => nomatch h.outcome
  | .array raw none, name, e => by
    rw [shape]
    exact iff_of_false nofun fun h => nomatch h.outcome
  | .array raw (some items), name, e => by
    rw [shape, Timed.atOnce_bind_pure, ← failsAtOnce_iff items (itemName name) e]
    exact ⟨fun | .items h => h, .items⟩
  | .record raw values, name, e => by
    rw [shape, Timed.atOnce_bind_pure, ← failsAtOnce_iff values name e]
    exact ⟨fun | .values h => h, .values⟩
  | .object raw properties, name, e => by
    rw [shape, Timed.atOnce_bind_error, Timed.atOnce_ofExcept]
    refine ⟨fun | .names h => .inl h, ?_⟩
    rintro (h | ⟨names, hnames, h⟩)
    · exact .names h
    · exact absurd h (not_atOnce_object (childNames_length hnames.outcome))
  | .composition raw keyword schemas, name, e => by
    rw [shape, Timed.atOnce_bind_pure, ← partFailsAtOnce_iff schemas]
    exact ⟨fun | .part h => h, .part⟩

theorem partFailsAtOnce_iff : ∀ (schemas : List Schema) (name : Option String) (count : Nat)
    (e : Fault), PartFailsAtOnce ctx name count schemas e ↔
      (parts ctx name count schemas).AtOnce (.error e)
  | [], name, count, e => by
    rw [parts]
    exact iff_of_false nofun fun h => nomatch h.outcome
  | s :: rest, name, count, e => by
    rw [parts, Timed.atOnce_bind_error, ← failsAtOnce_iff s]
    constructor
    · intro h
      cases h with
      | here h => exact .inl h
      | later hr hflat h =>
        refine .inr ⟨_, shape_atOnce_ok.2 ⟨hr, hflat⟩, Timed.atOnce_bind_pure.2 ?_⟩
        exact (partFailsAtOnce_iff rest _ _ e).1 h
    · rintro (h | ⟨r, hr, h⟩)
      · exact .here h
      · obtain ⟨hr, hflat⟩ := shape_atOnce_ok.1 hr
        exact .later hr hflat ((partFailsAtOnce_iff rest _ _ e).2 (Timed.atOnce_bind_pure.1 h))

end

theorem value_atOnce_error {s : Schema} {name : Option String} {e : Fault} :
    (value ctx s name).AtOnce (.error e) ↔ FailsAtOnce ctx s (givenName name) e :=
  Timed.atOnce_map_error.trans (failsAtOnce_iff s (givenName name) e).symm

theorem slot_atOnce_error {s : Schema} {name : Option String} {combined : Bool} {e : Fault} :
    (slot ctx s name combined).AtOnce (.error e) ↔ FailsAtOnce ctx s (givenName name) e :=
  Timed.atOnce_map_error.trans value_atOnce_error

/-- The members of an object are slots. -/
theorem members_eq_map (properties : List (Atom × Schema)) (names : List (Option String)) :
    members ctx properties names = (properties.zip names).map fun p =>
      (fun r => hoist (givenName p.2) false (finish p.1.2 r)) <$>
        shape ctx p.1.2 (givenName p.2) := by
  induction properties generalizing names with
  | nil =>
    rw [members]
    · rfl
    · simp
  | cons p properties ih =>
    cases names with
    | nil =>
      rw [members]
      · rfl
      · simp
    | cons name names =>
      rw [members, List.zip_cons_cons, List.map_cons, ih]

end Resolve

/-- The declarations of an entry fail at once: its name cannot be made, or the type of its schema
fails so. -/
inductive Definition.FailsAtOnce (ctx : Context) (entry : Components.Entry) : Fault → Prop where
  | name {e : Fault} : Form.pascal entry.name = .error e → FailsAtOnce ctx entry e
  | suffix {base : String} {e : Fault} :
      Form.pascal entry.name = .ok base → Form.suffixed base entry.suffix = .error e →
      FailsAtOnce ctx entry e
  | schema {base name : String} {e : Fault} :
      Form.pascal entry.name = .ok base → Form.suffixed base entry.suffix = .ok name →
      Resolve.FailsAtOnce ctx (Schema.ofValue entry.schema) (Resolve.givenName (some name)) e →
      FailsAtOnce ctx entry (e.within name)

theorem Definition.ofSchema_atOnce_error {ctx : Context} {name : String} {s : Schema} {e : Fault} :
    (ofSchema ctx name s).AtOnce (.error e) ↔
      ∃ e', Resolve.FailsAtOnce ctx s (Resolve.givenName (some name)) e' ∧ e'.within name = e := by
  refine Timed.atOnce_bind_pure.trans (Timed.atOnce_mapError.trans (exists_congr fun e' => ?_))
  exact and_congr_left fun _ => Resolve.value_atOnce_error

theorem Definition.failsAtOnce_iff {ctx : Context} {entry : Components.Entry} {e : Fault} :
    FailsAtOnce ctx entry e ↔ (ofEntry ctx entry).AtOnce (.error e) := by
  unfold ofEntry
  simp only [Timed.atOnce_bind_error, Timed.atOnce_ofExcept, ofSchema_atOnce_error]
  constructor
  · rintro (h | ⟨hbase, h⟩ | ⟨hbase, hname, h⟩)
    · exact .inl h
    · exact .inr ⟨_, hbase, .inl h⟩
    · exact .inr ⟨_, hbase, .inr ⟨_, hname, _, h, rfl⟩⟩
  · rintro (h | ⟨base, hbase, h | ⟨name, hname, e, h, rfl⟩⟩)
    · exact .name h
    · exact .suffix hbase h
    · exact .schema hbase hname h

/-! ## The first failure -/

/-- One of some items fails, and none before it does. -/
def FirstFails {α : Type} (Fails : α → Fault → Prop) (items : List α) (e : Fault) : Prop :=
  ∃ before item after, items = before ++ item :: after ∧ Fails item e ∧
    ∀ other ∈ before, ∀ e', ¬ Fails other e'

namespace Timed

variable {α : Type}

/-- Computations that are started together fail, and so does a loop on which they take turns, if
nothing else stops them. -/
structure GatherFails (xs : List (Timed Fault α)) (e : Fault) : Prop where
  together : (all xs).outcome = .error e
  loop : ∃ turns, ∀ m, turns ≤ m →
    (Schedule.Loop.tick^[m] (Schedule.Loop.start (xs.map job))).result? = some (.error e)

/-- A failure at once is before all that take time, and before all after it in order. -/
theorem failsFirst_of_atOnce {xs : List (Timed Fault α)} {e : Fault}
    (h : FirstFails (fun x e => x.AtOnce (.error e)) xs e) :
    Schedule.FailsFirst (xs.map job) e := by
  obtain ⟨before, x, after, rfl, hx, hbefore⟩ := h
  have hplace : ((before ++ x :: after).map job)[before.length]? = some x.job := by simp
  refine ⟨before.length, x.job, hplace, hx.outcome, fun q other e' hother he' hne => ?_⟩
  refine ⟨x.job, other, hplace, hother, ?_⟩
  have hdelay : x.job.delay = 0 := hx.rounds
  rw [hdelay]
  by_cases hq : q < before.length
  · rw [List.map_append, List.getElem?_append_left (by simpa using hq), List.getElem?_map] at hother
    obtain ⟨y, hy, rfl⟩ := Option.map_eq_some_iff.1 hother
    refine .inl (Nat.pos_of_ne_zero fun hzero => ?_)
    exact hbefore y (List.mem_of_getElem? hy) e' ⟨he', hzero⟩
  · omega

theorem gatherFails_of_atOnce {xs : List (Timed Fault α)} {e : Fault}
    (h : FirstFails (fun x e => x.AtOnce (.error e)) xs e) : GatherFails xs e := by
  have hend : Schedule.Gathered (xs.map job) (.error e) := .failed (failsFirst_of_atOnce h)
  constructor
  · rw [all_eq_together, (Schedule.gathered_together _).unique hend]
    rfl
  · obtain ⟨result, hresult, hloop⟩ := Schedule.Loop.exists_result (xs.map job)
    rwa [hresult.unique hend] at hloop

/-- The same for items from which the computations are made. -/
theorem gatherFails_map {β : Type} {Fails : β → Fault → Prop} {f : β → Timed Fault α}
    (hfails : ∀ item e, Fails item e ↔ (f item).AtOnce (.error e)) {items : List β} {e : Fault}
    (h : FirstFails Fails items e) : GatherFails (items.map f) e := by
  obtain ⟨before, item, after, rfl, hitem, hbefore⟩ := h
  refine gatherFails_of_atOnce ⟨before.map f, f item, after.map f, by simp,
    (hfails item e).1 hitem, ?_⟩
  intro other hother e' he'
  obtain ⟨item', hitem', rfl⟩ := List.mem_map.1 hother
  exact hbefore item' hitem' e' ((hfails item' e').2 he')

end Timed

/-- Failures at once come before all others. Among the members of an object, the parameters of a
query or the entries of a document, let one fail before anything in it is started together, and none
before it in order. Then its failure is that of all of them, and of what is made of them, whatever
the others fail with later. -/
theorem failure_at_once {e : Fault} :
    (∀ ctx properties names,
      FirstFails (fun p => Resolve.FailsAtOnce ctx p.1.2 (Resolve.givenName p.2))
        (properties.zip names) e →
      Timed.GatherFails (Resolve.members ctx properties names) e ∧
        ∀ raw name, Resolve.childNames ctx name (properties.map fun p => .atom p.1) = .ok names →
          (Resolve.shape ctx (.object raw properties) name).outcome = .error e) ∧
    (∀ (query : List Parameter) names,
      FirstFails (fun p => Resolve.FailsAtOnce p.1.owner p.1.schema (Resolve.givenName p.2))
        (query.zip names) e →
      Timed.GatherFails
        ((query.zip names).map fun (p, n) => Resolve.slot p.owner p.schema n false) e ∧
        ∀ ctx name, Resolve.childNames ctx (some name) (query.map (·.name)) = .ok names →
          (Operation.paramsInterface ctx name query).outcome = .error e) ∧
    ∀ ctx entries, FirstFails (Definition.FailsAtOnce ctx) entries e →
      Timed.GatherFails (entries.map (Definition.ofEntry ctx)) e ∧
        (Components.entries ctx = .ok entries →
          (Definition.ofDocument ctx).outcome = .error e) := by
  refine ⟨fun ctx properties names h => ?_, fun query names h => ?_, fun ctx entries h => ?_⟩
  · have hgather : Timed.GatherFails (Resolve.members ctx properties names) e := by
      rw [Resolve.members_eq_map]
      refine Timed.gatherFails_map (fun p e => ?_) h
      exact (Timed.atOnce_map_error.trans (Resolve.failsAtOnce_iff _ _ e).symm).symm
    refine ⟨hgather, fun raw name hnames => ?_⟩
    rw [Resolve.shape, Timed.outcome_bind, Timed.outcome_ofExcept, hnames]
    change (Timed.all (Resolve.members ctx properties names) >>= _).outcome = _
    rw [Timed.outcome_bind, hgather.together]
    rfl
  · have hgather : Timed.GatherFails
        ((query.zip names).map fun (p, n) => Resolve.slot p.owner p.schema n false) e := by
      refine Timed.gatherFails_map (fun p e => ?_) h
      exact Resolve.slot_atOnce_error.symm
    refine ⟨hgather, fun ctx name hnames => ?_⟩
    rw [Operation.paramsInterface, Timed.outcome_bind, Timed.outcome_ofExcept, hnames]
    change (Timed.all _ >>= _).outcome = _
    rw [Timed.outcome_bind, hgather.together]
    rfl
  · have hgather : Timed.GatherFails (entries.map (Definition.ofEntry ctx)) e := by
      refine Timed.gatherFails_map (fun entry e => ?_) h
      exact Definition.failsAtOnce_iff
    refine ⟨hgather, fun hentries => ?_⟩
    rw [Definition.ofDocument, Timed.outcome_bind, Timed.outcome_ofExcept, hentries]
    change (Timed.all _ >>= _).outcome = _
    rw [Timed.outcome_bind, hgather.together]
    rfl

/-- A schema that fails below an object, and two that fail at once. -/
def lateAndEarly : List (Atom × Value) :=
  let ref s : Value := .map [(.text "$ref", .text s)]
  [(.text "late", .map [(.text "properties", .map [(.text "x", ref "#/x")])]),
    (.text "early", .map [(.text "type", .text "array"), (.text "items", ref "#/y")]),
    (.text "next", ref "#/z")]

theorem failure_at_once_early :
    let document : Value := .map [(.text "components", .map [(.text "schemas", .map lateAndEarly)])]
    let ctx := Context.start [("/api.json", document)] "/api.json" (.map [])
    let lost declaration : Fault :=
      .unresolved ⟨"#/y", "/api.json", some (.noNode "/y"), declaration⟩
    (Resolve.shape ctx (.object [] (Schema.ofMembers lateAndEarly)) (some "Pet")).outcome =
        .error (lost none) ∧
      (Operation.paramsInterface ctx "GetParams" (lateAndEarly.map fun m =>
        ⟨[(.text "name", .atom m.1), (.text "schema", m.2)], ctx⟩)).outcome = .error (lost none) ∧
      (Definition.ofDocument ctx).outcome = .error (lost (some "Early")) := by
  intro document ctx lost
  have hlost : Resolve.reference ctx "#/y" = .error (lost none) :=
    Except.eq_error_of_map (by decide +kernel)
  have hearly : ∀ raw name,
      Resolve.FailsAtOnce ctx (.array raw (some (.reference [(.text "$ref", .text "#/y")] "#/y")))
        name (lost none) := fun raw name => .items (.reference hlost)
  refine ⟨?_, ?_, ?_⟩
  · have hnames : Resolve.childNames ctx (some "Pet")
        ((Schema.ofMembers lateAndEarly).map fun p => .atom p.1) =
          .ok [some "PetLate", some "PetEarly", some "PetNext"] := by decide +kernel
    refine (failure_at_once.1 ctx (Schema.ofMembers lateAndEarly) _ ?_).2 [] (some "Pet") hnames
    refine ⟨[_], _, [_], rfl, hearly _ _, fun other hother e h => ?_⟩
    obtain rfl := List.mem_singleton.1 hother
    exact absurd ((Resolve.failsAtOnce_iff _ _ e).1 h).rounds (by decide +kernel)
  · have hnames : Resolve.childNames ctx (some "GetParams")
        ((lateAndEarly.map fun m => (⟨[(.text "name", .atom m.1), (.text "schema", m.2)], ctx⟩ :
          Parameter)).map (·.name)) =
          .ok [some "GetParamsLate", some "GetParamsEarly", some "GetParamsNext"] := by
      decide +kernel
    refine (failure_at_once.2.1 _ _ ?_).2 ctx "GetParams" hnames
    refine ⟨[_], _, [_], rfl, hearly _ _, fun other hother e h => ?_⟩
    obtain rfl := List.mem_singleton.1 hother
    exact absurd ((Resolve.failsAtOnce_iff _ _ e).1 h).rounds (by decide +kernel)
  · have hentries : Components.entries ctx = .ok (Components.schemaEntries lateAndEarly) := rfl
    have hwithin : (lost none).within "Early" = lost (some "Early") := by decide
    have hbase : Form.pascal (.text "early") = .ok "Early" := by decide +kernel
    have hname : Form.suffixed "Early" (.text "") = .ok "Early" := by decide +kernel
    refine (failure_at_once.2.2 ctx (Components.schemaEntries lateAndEarly) ?_).2 hentries
    refine ⟨[_], _, [_], rfl, hwithin ▸ .schema hbase hname (hearly _ _),
      fun other hother e h => ?_⟩
    obtain rfl := List.mem_singleton.1 hother
    exact absurd (Definition.failsAtOnce_iff.1 h).rounds (by decide +kernel)

end ApiTypes

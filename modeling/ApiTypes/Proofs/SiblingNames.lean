import ApiTypes.Proofs.Failures
import ApiTypes.Proofs.Naming
import Mathlib.Order.Bounds.Basic

/-!
# Names that siblings get

* `Resolve.Freed` : what a name becomes where some are used;
* `Resolve.childNamesFrom_freed` : each member gets its name freed from those before it;
* `Resolve.MembersNamed` : the names of the members of one declaration;
* `Resolve.Part` : what a composition makes of one of its schemas, with the number in its name and
  the declaration that the slot adds;
* `Resolve.exists_parts` : the parts of a composition, and that a part with a declaration of its own
  has a smaller number than all parts after it;
* `sibling_names` : members of one declaration and parts of one composition have declarations of
  different names.
-/

namespace ApiTypes

namespace Resolve

/-! ## Free names -/

/-- What a name becomes where some are used: it stays, or it gets the first number from two on with
which it is not used. -/
inductive Freed (used : Set String) (name : String) : String → Prop
  | unused (h : name ∉ used) : Freed used name name
  | numbered {n : Nat} (h : name ∈ used)
      (hn : IsLeast {n | 2 ≤ n ∧ name ++ toString n ∉ used} n) :
      Freed used name (name ++ toString n)

/-- All numbers before the one that is found are used. -/
theorem mem_of_lt_freeNumber {used : List String} {name : String} {tries n k : Nat} (hn : n ≤ k)
    (hk : k < freeNumber used name tries n) : name ++ toString k ∈ used := by
  induction tries generalizing n with
  | zero =>
    rw [freeNumber] at hk
    omega
  | succ tries ih =>
    rw [freeNumber] at hk
    split at hk
    · rename_i hused
      rcases Nat.eq_or_lt_of_le hn with rfl | hlt
      · exact List.contains_iff_mem.1 hused
      · exact ih hlt hk
    · omega

/-- The search for a number ends at the first one that is free. -/
theorem freed_freeName (used : List String) (name : String) :
    Freed {m | m ∈ used} name (freeName used name) := by
  unfold freeName
  split
  · rename_i hused
    refine .numbered (List.contains_iff_mem.1 hused) ⟨⟨le_freeNumber .., ?_⟩, ?_⟩
    · exact freeNumber_not_mem (List.contains_iff_mem.1 hused) (append_number_ne name)
    · rintro k ⟨hk, hfree⟩
      exact Nat.le_of_not_lt fun hlt => hfree (mem_of_lt_freeNumber hk hlt)
  · rename_i hunused
    exact .unused fun hmem => hunused (List.contains_iff_mem.2 hmem)

/-! ## Members -/

/-- The name of a member is used from then on, unless it is empty. -/
theorem usedNames_cons (used later : List String) (m : String) :
    {u | u ∈ (if m = "" then used else m :: used) ∨ u ∈ later ∧ u ≠ ""} =
      {u | u ∈ used ∨ u ∈ m :: later ∧ u ≠ ""} := by
  ext u
  show (u ∈ ite _ _ _ ∨ _) ↔ _ ∨ u ∈ m :: later ∧ u ≠ ""
  rw [List.mem_cons]
  split
  · rename_i hempty
    subst hempty
    tauto
  · rename_i hgiven
    rw [List.mem_cons]
    by_cases hu : u = m
    · subst hu
      simp [hgiven]
    · simp [hu]

section
variable {ctx : Context}

/-- Each member gets the name that is made for its key, freed from the used names and from the names
of the members before it. -/
theorem childNamesFrom_freed {parent : String} {used names : List String} {keys : List Value}
    (h : childNamesFrom ctx parent used keys = .ok names) {i : Nat} {key : Value}
    (hkey : keys[i]? = some key) :
    ∃ base m, childName ctx parent key = .ok base ∧ names[i]? = some m ∧
      Freed {u | u ∈ used ∨ u ∈ names.take i ∧ u ≠ ""} base m := by
  induction keys generalizing used names i with
  | nil => simp at hkey
  | cons first rest ih =>
    rw [childNamesFrom] at h
    obtain ⟨child, hchild, h⟩ := Except.bind_eq_ok.1 h
    obtain ⟨later, hlater, h⟩ := Except.bind_eq_ok.1 h
    obtain rfl : freeName used child :: later = names := by simpa [pure, Except.pure] using h
    cases i with
    | zero =>
      obtain rfl : first = key := by simpa using hkey
      refine ⟨child, freeName used child, hchild, rfl, ?_⟩
      simpa using freed_freeName used child
    | succ i =>
      obtain ⟨base, m, hbase, hm, hfreed⟩ := ih hlater (by simpa using hkey)
      refine ⟨base, m, hbase, by simpa using hm, ?_⟩
      rw [List.take_succ_cons, ← usedNames_cons]
      exact hfreed

/-- The names of the members of one declaration: one for each key, in order. Those that are not
empty differ. Without a name for the declaration there are none; with one, each is the name that is
made for its key, freed from those before it. -/
structure MembersNamed (ctx : Context) (parent : Option String) (keys : List String)
    (names : List (Option String)) : Prop where
  length_eq : names.length = keys.length
  nodup : (names.filterMap givenName).Nodup
  unnamed : givenName parent = none → ∀ m ∈ names, m = none
  freed : ∀ p, givenName parent = some p → ∀ (i : Nat) (key : String), keys[i]? = some key →
    ∃ base m, childName ctx p (.text key) = .ok base ∧ names[i]? = some (some m) ∧
      Freed {u | some u ∈ names.take i ∧ u ≠ ""} base m

theorem nodup_givenNames {names : List (Option String)}
    (h : names.Pairwise fun m n => givenName m ≠ none → givenName m ≠ givenName n) :
    (names.filterMap givenName).Nodup := by
  rw [List.Nodup, List.pairwise_filterMap]
  refine h.imp fun {m n} hne a ha b hb heq => ?_
  have hgiven : givenName m ≠ none := by simp [ha]
  exact hne hgiven (ha.trans (heq ▸ hb.symm))

theorem membersNamed_of_ok {parent : Option String} {keys : List String}
    {names : List (Option String)} (h : childNames ctx parent (keys.map .text) = .ok names) :
    MembersNamed ctx parent keys names := by
  refine ⟨?_, nodup_givenNames (childNames_apart h), ?_, ?_⟩
  · simpa using childNames_length h
  · intro hnone m hm
    rw [childNames, show parent.filter (· ≠ "") = none from hnone] at h
    obtain rfl := Except.ok.inj h
    obtain ⟨_, -, rfl⟩ := List.mem_map.1 hm
    rfl
  · intro p hp i key hkey
    rw [childNames, show parent.filter (· ≠ "") = some p from hp] at h
    obtain ⟨texts, htexts, h⟩ := Except.bind_eq_ok.1 h
    obtain rfl := Except.ok.inj h
    have hvalue : (keys.map Value.text)[i]? = some (.text key) := by simp [hkey]
    obtain ⟨base, m, hbase, hm, hfreed⟩ := childNamesFrom_freed htexts hvalue
    refine ⟨base, m, hbase, by simp [hm], ?_⟩
    simpa [← List.map_take] using hfreed

/-- Names for texts are made unless the names of the component schemas cannot be looked up. -/
theorem childNames_error {parent : Option String} {keys : List String} {f : Fault}
    (h : childNames ctx parent (keys.map .text) = .error f) :
    ∃ name, ctx.isDeclared name = .error f := by
  refine failsOnly_childNames (P := fun f => ∃ name, ctx.isDeclared name = .error f)
    (fun key hkey => ?_) (fun name f hf => ⟨name, hf⟩) parent f h
  obtain ⟨text, -, rfl⟩ := List.mem_map.1 hkey
  exact failsOnly_ok _

end

/-! ## Parts of a composition -/

/-- What a composition makes of one of its schemas: how many of those before it have declarations,
its type by itself and in its slot, and the declaration that the slot adds, if it does. -/
structure Part where
  before : Nat
  inner : Resolved
  outer : Resolved
  own : Option Declaration

namespace Part

/-- The number in the name of a part. The number one is not written. -/
def number (p : Part) : Nat := p.before + 1

def isDeclaring (p : Part) : Bool := !p.outer.declarations.isEmpty

/-- A part is made of a schema, under the name of the parts with its number. -/
structure Of (ctx : Context) (base : String) (s : Schema) (p : Part) : Prop where
  inner_ok : (value ctx s (numbered (some base) p.before)).outcome = .ok p.inner
  outer_ok : (slot ctx s (numbered (some base) p.before) true).outcome = .ok p.outer
  declarations_eq : p.outer.declarations = p.inner.declarations ++ p.own.toList
  name_eq : ∀ d ∈ p.own, numbered (some base) p.before = some d.name

theorem Of.isDeclaring {ctx : Context} {base : String} {s : Schema} {p : Part}
    (h : p.Of ctx base s) (hown : p.own.isSome = true) : p.isDeclaring = true := by
  obtain ⟨d, hd⟩ := Option.isSome_iff_exists.1 hown
  rw [Part.isDeclaring, h.declarations_eq, hd]
  simp

end Part

section
variable {ctx : Context} {base : String}

theorem givenName_numbered (hbase : base ≠ "") (count : Nat) :
    givenName (numbered (some base) count) = numbered (some base) count := by
  have hne : (if count = 0 then base else base ++ toString (count + 1)) ≠ "" := by
    split
    · exact hbase
    · rw [Ne, String.append_eq_empty_iff]
      exact fun h => hbase h.1
  exact Option.filter_eq_some_iff.2 ⟨rfl, decide_eq_true hne⟩

/-- A schema in its slot is a part. -/
theorem exists_part (hbase : base ≠ "") {count : Nat} {s : Schema} {r : Resolved}
    (h : (shape ctx s (numbered (some base) count)).outcome = .ok r) :
    ∃ p : Part, p.Of ctx base s ∧ p.before = count ∧
      p.outer = hoist (numbered (some base) count) true (finish s r) := by
  have hgiven := givenName_numbered hbase count
  have hinner : (value ctx s (numbered (some base) count)).outcome = .ok (finish s r) :=
    value_ok.2 ⟨r, hgiven.symm ▸ h, rfl⟩
  have houter : (slot ctx s (numbered (some base) count) true).outcome =
      .ok (hoist (numbered (some base) count) true (finish s r)) :=
    slot_ok.2 ⟨finish s r, hinner, by rw [hgiven]⟩
  rcases hoist_declarations (numbered (some base) count) true (finish s r) with heq |
    ⟨n, model, hn, -, -, heq⟩
  · refine ⟨⟨count, _, _, none⟩, ⟨hinner, houter, ?_, fun d hd => ?_⟩, rfl, rfl⟩
    · exact heq.trans (List.append_nil _).symm
    · cases hd
  · refine ⟨⟨count, _, _, some ⟨n, model, (finish s r).imports⟩⟩,
      ⟨hinner, houter, heq, fun d hd => ?_⟩, rfl, rfl⟩
    obtain rfl := Option.mem_some.1 hd
    exact hn

/-- The parts of a composition: each is numbered by those before it that have declarations, so after
one with a declaration of its own all numbers are larger. -/
theorem exists_parts (hbase : base ≠ "") {count : Nat} {schemas : List Schema}
    {types : List Resolved}
    (h : PartTypes (fun s name r => (shape ctx s name).outcome = .ok r) (some base) count schemas
      types) :
    ∃ ps : List Part, List.Forall₂ (fun s p => Part.Of ctx base s p) schemas ps ∧
      ps.map (·.outer) = types ∧
      (∀ i p, ps[i]? = some p → p.before = count + (ps.take i).countP Part.isDeclaring) ∧
      ps.Pairwise fun p q => p.own.isSome = true → p.number < q.number := by
  induction h with
  | nil => exact ⟨[], .nil, rfl, by simp, .nil⟩
  | @cons count s r schemas types hr _ ih =>
    obtain ⟨p, hp, hbefore, houter⟩ := exists_part hbase hr
    obtain ⟨ps, hps, htypes, hcounts, hpairs⟩ := ih
    rw [← houter] at hcounts
    have hnext : nextCount count p.outer = count + if p.isDeclaring then 1 else 0 := by
      unfold nextCount Part.isDeclaring
      cases p.outer.declarations.isEmpty <;> rfl
    refine ⟨p :: ps, .cons hp hps, ?_, ?_, ?_⟩
    · rw [List.map_cons, houter, htypes]
    · intro i q hq
      cases i with
      | zero =>
        obtain rfl : p = q := by simpa using hq
        simpa using hbefore
      | succ i =>
        rw [hcounts i q (by simpa using hq), hnext, List.take_succ_cons, List.countP_cons]
        omega
    · refine List.pairwise_cons.2 ⟨fun q hq hown => ?_, hpairs⟩
      obtain ⟨i, hi⟩ := List.mem_iff_getElem?.1 hq
      have hlarger := hcounts i q hi
      rw [hnext, if_pos (hp.isDeclaring hown)] at hlarger
      rw [Part.number, Part.number]
      omega

/-- Declarations of parts have different names, as the numbers in them differ. -/
theorem nodup_ownNames {schemas : List Schema} {ps : List Part}
    (hps : List.Forall₂ (fun s p => Part.Of ctx base s p) schemas ps)
    (hpairs : ps.Pairwise fun p q => p.own.isSome = true → p.number < q.number) :
    ((ps.filterMap (·.own)).map (·.name)).Nodup := by
  rw [List.Nodup, List.pairwise_map, List.pairwise_filterMap]
  refine hpairs.imp_of_mem fun {p q} hp hq hless d hd e he heq => ?_
  obtain ⟨_, -, hofp⟩ := exists_left_of_forall₂ hps hp
  obtain ⟨_, -, hofq⟩ := exists_left_of_forall₂ hps hq
  have hpname := hofp.name_eq d hd
  have hqname := hofq.name_eq e he
  rw [← heq, ← hpname] at hqname
  have hsame : p.before = q.before := numbered_inj (by simp [hpname]) hqname.symm
  have hlarger := hless (Option.isSome_iff_exists.2 ⟨d, hd⟩)
  rw [Part.number, Part.number, hsame] at hlarger
  exact Nat.lt_irrefl _ hlarger

/-- A composition declares what its parts declare, and one more thing at most. -/
theorem declarations_combine (keyword : Keyword) (name : Option String) (types : List Resolved) :
    declarationsOf types <+: (combine keyword name types).declarations := by
  unfold combine
  split
  · exact List.prefix_refl []
  · split
    · split
      · exact List.prefix_append _ _
      · exact List.prefix_refl _
    · exact List.prefix_refl _

theorem composeBy_ok {word : String} {name : Option String} {schemas : List Schema} {r : Resolved}
    (h : (composeBy ctx word name schemas).outcome = .ok r) :
    ∃ keyword types, keyword.text = word ∧
      PartTypes (fun s name r => (shape ctx s name).outcome = .ok r)
        (partName (givenName name) keyword) 0 schemas types ∧
      r = combine keyword (givenName name) types := by
  unfold composeBy at h
  split at h
  · rename_i keyword hkeyword
    obtain ⟨types, htypes, h⟩ := Timed.outcome_bind_ok.1 h
    have htext := List.find?_some (p := fun k : Keyword => decide (k.text = word)) hkeyword
    exact ⟨keyword, types, of_decide_eq_true htext, (outcomeLaws ctx).parts _ _ _ _ htypes,
      (Except.ok.inj h).symm⟩
  · cases h

end
end Resolve

open Resolve in
/-- Names for the members of one declaration are made for all keys, unless the names of the
component schemas cannot be looked up, and those that are not empty differ: each is that of its key,
with the first free number from two on if a member before it has that. The parts of one composition
that get declarations of their own get them under different names, with larger and larger numbers:
each part is numbered by the parts before it that have declarations, be they their own or below
them. -/
theorem sibling_names (ctx : Context) :
    (∀ (parent : Option String) (keys : List String),
      (∃ names, childNames ctx parent (keys.map .text) = .ok names ∧
          MembersNamed ctx parent keys names) ∨
        ∃ f, childNames ctx parent (keys.map .text) = .error f ∧
          ∃ name, ctx.isDeclared name = .error f) ∧
    ∀ (word name : String) (schemas : List Schema) (r : Resolved), name ≠ "" →
      (composeBy ctx word (some name) schemas).outcome = .ok r →
      ∃ ps : List Part,
        List.Forall₂ (Part.Of ctx (Name.pascal name ++ Name.pascal word)) schemas ps ∧
        (∀ i p, ps[i]? = some p → p.before = (ps.take i).countP Part.isDeclaring) ∧
        ps.flatMap (·.outer.declarations) <+: r.declarations ∧
        ((ps.filterMap (·.own)).map (·.name)).Nodup ∧
        (ps.filter (·.own.isSome)).Pairwise fun p q => p.number < q.number := by
  constructor
  · intro parent keys
    cases hnames : childNames ctx parent (keys.map .text) with
    | ok names => exact .inl ⟨names, rfl, membersNamed_of_ok hnames⟩
    | error f => exact .inr ⟨f, rfl, childNames_error hnames⟩
  · intro word name schemas r hname h
    obtain ⟨keyword, types, rfl, htypes, rfl⟩ := composeBy_ok h
    have hgiven : givenName (some name) = some name :=
      Option.filter_eq_some_iff.2 ⟨rfl, decide_eq_true hname⟩
    have hbase : Name.pascal name ++ Name.pascal keyword.text ≠ "" := by
      rw [Ne, String.append_eq_empty_iff]
      rintro ⟨-, hempty⟩
      cases keyword <;> exact absurd hempty (by decide)
    rw [hgiven] at htypes
    obtain ⟨ps, hps, rfl, hbefore, hpairs⟩ := exists_parts hbase htypes
    refine ⟨ps, hps, ?_, ?_, nodup_ownNames hps hpairs, ?_⟩
    · simpa using hbefore
    · have hdeclarations := declarations_combine keyword (givenName (some name)) (ps.map (·.outer))
      rwa [declarationsOf, List.flatMap_map] at hdeclarations
    · exact List.pairwise_filter.2 (hpairs.imp fun hless hp _ => hless hp)

/-- Two objects, and a list of objects between them. -/
def petForms : List Schema :=
  let object (key : String) : Value :=
    .map [(.text "properties", .map [(.text key, .map [(.text "type", .text "string")])])]
  Schema.ofValues [object "name",
    .map [(.text "type", .text "array"), (.text "items", object "tag")], object "age"]

open Resolve in
theorem sibling_names_pets :
    let ctx := Context.start [] "/api.json" (.map [])
    ∃ r ps, "Pet" ≠ "" ∧ (composeBy ctx "oneOf" (some "Pet") petForms).outcome = .ok r ∧
      r.declarations.map (·.name) = ["PetOneOf", "PetOneOf2Item", "PetOneOf3"] ∧
      List.Forall₂ (Part.Of ctx "PetOneOf") petForms ps ∧
      ((ps.filterMap (·.own)).map (·.name)).Nodup := by
  intro ctx
  obtain ⟨r, hr, hnames⟩ := Except.exists_of_any
    (x := (composeBy ctx "oneOf" (some "Pet") petForms).outcome)
    (p := fun r => decide (r.declarations.map (·.name) =
      ["PetOneOf", "PetOneOf2Item", "PetOneOf3"])) (by decide +kernel)
  obtain ⟨ps, hps, -, -, hnodup, -⟩ := (sibling_names ctx).2 "oneOf" "Pet" petForms r (by decide) hr
  have hbase : Name.pascal "Pet" ++ Name.pascal "oneOf" = "PetOneOf" := by decide +kernel
  rw [hbase] at hps
  exact ⟨r, ps, by decide, hr, of_decide_eq_true hnames, hps, hnodup⟩

/-- The number that one key gets can be what another key is. -/
example : (Resolve.childNames (Context.start [] "/api.json" (.map [])) (some "Pet")
    (["a", "A", "a2", "", "a"].map .text)).toOption =
      some (["PetA", "PetA2", "PetA22", "Pet", "PetA3"].map some) := by decide +kernel

end ApiTypes

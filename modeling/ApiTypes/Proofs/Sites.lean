import ApiTypes.Proofs.Merging
import ApiTypes.Proofs.Siblings

/-!
# Where declarations come from

* `Step`, `Resolve.below?`, `Resolve.at?` : the parts of a schema, and the schema at a site in it
  with the name under which it is read there;
* `Resolve.nameAt?` : that name alone;
* `Resolve.Sited` : declarations that come from sites of their own and are named by them, those
  below one schema differently;
* `Resolve.siteLaws` : the declarations of types are such;
* `Declaration.leaves_merge` : what is put together when declarations are merged.
-/

namespace ApiTypes

/-- A step from a schema to a part of it. -/
inductive Step where
  | property (index : Nat)
  | items
  | values
  | part (index : Nat)
  deriving DecidableEq, Repr

/-- The steps from a schema to a part of it, however deep. -/
abbrev Site := List Step

/-- Whether a model declares a type; the object that lists the values of several enums does not. -/
def Model.declaresType : Model → Bool
  | interface .. | synonym .. | empty .. | enum .. => true
  | mergedEnum .. => false
  | both first second => first.declaresType || second.declaresType

namespace Resolve

/-- The number of types with declarations of their own. -/
def countDeclaring (types : List Resolved) : Nat := types.countP fun r => !r.declarations.isEmpty

/-- The parts with declarations among the first ones of a composition. -/
def declaringBefore (ctx : Context) (name : Option String) (schemas : List Schema) (index : Nat) :
    Nat :=
  match (parts ctx name 0 (schemas.take index)).outcome with
  | .ok types => countDeclaring types
  | .error _ => 0

/-- The part of a schema that is one step below, and the name under which it is read. -/
def below? (ctx : Context) (s : Schema) (name : Option String) (step : Step) :
    Option (Schema × Option String) :=
  match s, step with
  | .object _ properties, .property i => do
    let names ← (childNames ctx name (properties.map fun p => .atom p.1)).toOption
    return ((← properties[i]?).2, givenName (← names[i]?))
  | .array _ (some items), .items => some (items, itemName name)
  | .record _ values, .values => some (values, name)
  | .composition _ keyword schemas, .part i => do
    let base := partName name keyword
    return (← schemas[i]?, numbered base (declaringBefore ctx base schemas i))
  | _, _ => none

/-- The schema at a site, and the name under which it is read. -/
def at? (ctx : Context) (s : Schema) (name : Option String) : Site → Option (Schema × Option String)
  | [] => some (s, name)
  | step :: rest => (below? ctx s name step).bind fun t => at? ctx t.1 t.2 rest

/-- The name under which the schema at a site is read. -/
def nameAt? (ctx : Context) (s : Schema) (name : Option String) (site : Site) : Option String :=
  (at? ctx s name site).bind Prod.snd

theorem nameAt?_cons {ctx : Context} {s t : Schema} {name n : Option String} {step : Step}
    (h : below? ctx s name step = some (t, n)) (site : Site) :
    nameAt? ctx s name (step :: site) = nameAt? ctx t n site := by
  rw [nameAt?, at?, h, Option.bind_some, nameAt?]

/-! ## Declarations and their sites -/

/-- Declarations that come from different sites, each named as what is read there. Of what is one
step below one schema, no two have one name. -/
structure Sited (ctx : Context) (s : Schema) (name : Option String) (sites : List Site)
    (ds : List Declaration) : Prop where
  nodup : sites.Nodup
  named : List.Forall₂ (fun p d => nameAt? ctx s name p = some d.name) sites ds
  apart : ∀ site a b, site ++ [a] ∈ sites → site ++ [b] ∈ sites →
    nameAt? ctx s name (site ++ [a]) = nameAt? ctx s name (site ++ [b]) → a = b

namespace Sited

variable {ctx : Context} {s t : Schema} {name n : Option String} {sites : List Site}
  {ds : List Declaration}

theorem nil : Sited ctx s name [] [] := ⟨.nil, .nil, by simp⟩

theorem exists_name (h : Sited ctx s name sites ds) {p : Site} (hp : p ∈ sites) :
    ∃ d ∈ ds, nameAt? ctx s name p = some d.name :=
  exists_right_of_forall₂ h.named hp

/-- Declarations of a part are declarations of the whole. -/
theorem below (h : Sited ctx t n sites ds) {step : Step}
    (hstep : below? ctx s name step = some (t, n)) :
    Sited ctx s name (sites.map (step :: ·)) ds where
  nodup := h.nodup.map fun p q hpq => (List.cons.inj hpq).2
  named := by
    rw [List.forall₂_map_left_iff]
    exact h.named.imp fun p d hpd => (nameAt?_cons hstep p).trans hpd
  apart site a b ha hb heq := by
    obtain ⟨p, hp, hpa⟩ := List.mem_map.1 ha
    obtain ⟨q, hq, hqb⟩ := List.mem_map.1 hb
    cases site with
    | nil =>
      rw [← (List.cons.inj hpa).1, ← (List.cons.inj hqb).1]
    | cons first rest =>
      obtain ⟨rfl, rfl⟩ := List.cons.inj hpa
      obtain ⟨-, rfl⟩ := List.cons.inj hqb
      rw [List.cons_append, List.cons_append, nameAt?_cons hstep, nameAt?_cons hstep] at heq
      exact h.apart rest a b hp hq heq

/-- Declarations of different parts, where those one step below have different names. -/
theorem append (h : Sited ctx s name sites ds) {sites' : List Site} {ds' : List Declaration}
    (h' : Sited ctx s name sites' ds') (hheads : ∀ p ∈ sites, ∀ q ∈ sites', p.head? ≠ q.head?)
    (hcross : ∀ a b, [a] ∈ sites → [b] ∈ sites' →
      nameAt? ctx s name [a] ≠ nameAt? ctx s name [b]) :
    Sited ctx s name (sites ++ sites') (ds ++ ds') where
  nodup := by
    refine List.nodup_append'.2 ⟨h.nodup, h'.nodup, fun p hp hp' => ?_⟩
    exact hheads p hp p hp' rfl
  named := List.rel_append h.named h'.named
  apart site a b ha hb heq := by
    -- of two sites below one, a common first step decides on which side they are
    have hside : ∀ c d, site ++ [c] ∈ sites → site ++ [d] ∈ sites' →
        nameAt? ctx s name (site ++ [c]) ≠ nameAt? ctx s name (site ++ [d]) := by
      intro c d hc hd
      cases site with
      | nil => exact hcross c d hc hd
      | cons first rest =>
        exact absurd rfl (hheads (first :: rest ++ [c]) hc (first :: rest ++ [d]) hd)
    rcases List.mem_append.1 ha with ha | ha <;> rcases List.mem_append.1 hb with hb | hb
    · exact h.apart site a b ha hb heq
    · exact absurd heq (hside a b ha hb)
    · exact absurd heq.symm (hside b a hb ha)
    · exact h'.apart site a b ha hb heq

end Sited

/-! ## Declarations of types -/

/-- The declarations that declare types. -/
def typesOf (ds : List Declaration) : List Declaration := ds.filter (·.model.declaresType)

theorem typesOf_append (ds es : List Declaration) : typesOf (ds ++ es) = typesOf ds ++ typesOf es :=
  List.filter_append ..

theorem finish_declarations (s : Schema) (r : Resolved) :
    (finish s r).declarations = r.declarations := by
  cases s with
  | reference => rfl
  | _ =>
    unfold finish Resolved.ofSchema Resolved.withNull
    dsimp only
    split_ifs <;> rfl

/-- A slot adds a declaration of a type under its name, or none. -/
theorem hoist_declarations (name : Option String) (combined : Bool) (r : Resolved) :
    (hoist name combined r).declarations = r.declarations ∨
      ∃ n model, name = some n ∧ model.declaresType = true ∧ model.leaves = [model] ∧
        (hoist name combined r).declarations = r.declarations ++ [⟨n, model, r.imports⟩] := by
  unfold hoist
  cases name with
  | none => exact .inl rfl
  | some n =>
    dsimp only
    split
    · refine .inr ⟨n, _, rfl, ?_, ?_, rfl⟩
      · split <;> rfl
      · split <;> rfl
    · split
      · exact .inr ⟨n, _, rfl, rfl, rfl, rfl⟩
      · exact .inl rfl

/-- Of the types of a composition, it declares what its parts declare. -/
theorem typesOf_combine (keyword : Keyword) (name : Option String) (types : List Resolved) :
    typesOf (combine keyword name types).declarations = typesOf (declarationsOf types) := by
  unfold combine
  split
  · rfl
  · split
    · split
      · simp [mergedEnum, typesOf, Model.declaresType]
      · rfl
    · rfl

section
variable {ctx : Context} {s : Schema} {name : Option String}

/-- The declarations of a schema's type, in a slot of its name or not. -/
def SitedBelow (ctx : Context) (s : Schema) (name : Option String) (r : Resolved) : Prop :=
  ∃ sites, [] ∉ sites ∧ Sited ctx s name sites (typesOf r.declarations)

theorem SitedBelow.finish {r : Resolved} (h : SitedBelow ctx s name r) (t : Schema) :
    SitedBelow ctx s name (finish t r) := by
  unfold SitedBelow
  rw [finish_declarations]
  exact h

theorem SitedBelow.hoist {r : Resolved} (h : SitedBelow ctx s name r) (combined : Bool) :
    ∃ sites, Sited ctx s name sites (typesOf (hoist name combined r).declarations) := by
  obtain ⟨sites, hnil, hsited⟩ := h
  rcases hoist_declarations name combined r with heq | ⟨n, model, rfl, hmodel, -, heq⟩
  · exact ⟨sites, by rw [heq]; exact hsited⟩
  · refine ⟨sites ++ [[]], ?_⟩
    have hlast : typesOf [⟨n, model, r.imports⟩] = [⟨n, model, r.imports⟩] := by
      simp [typesOf, hmodel]
    rw [heq, typesOf_append, hlast]
    refine hsited.append ⟨List.nodup_singleton _, .cons rfl .nil, ?_⟩ ?_ ?_
    · intro site a b ha
      simp at ha
    · intro p hp q hq
      obtain rfl := List.mem_singleton.1 hq
      cases p with
      | nil => exact absurd hp hnil
      | cons step rest => exact Option.some_ne_none step
    · intro a b _ hb
      simp at hb

/-- Each member of an object declares types at sites below it. -/
theorem sited_members {properties : List (Atom × Schema)} {names : List (Option String)}
    {types : List Resolved} (h : MemberTypes (SitedBelow ctx) properties names types)
    (hapart : names.Pairwise fun m n => givenName m ≠ none → givenName m ≠ givenName n) (k : Nat)
    (hbelow : ∀ i key t m, properties[i]? = some (key, t) → names[i]? = some m →
      below? ctx s name (.property (k + i)) = some (t, givenName m)) :
    ∃ sites, (∀ p ∈ sites, ∃ i rest, ∃ m ∈ names, p = .property (k + i) :: rest ∧
        nameAt? ctx s name [.property (k + i)] = givenName m) ∧
      Sited ctx s name sites (typesOf (declarationsOf types)) := by
  induction h generalizing k with
  | nil => exact ⟨[], by simp, .nil⟩
  | @cons key t m r properties names types hr _ ih =>
    rw [List.pairwise_cons] at hapart
    obtain ⟨sites, hheads, hsited⟩ := ih hapart.2 (k + 1) (by
      intro i key t m hi hm
      rw [Nat.add_right_comm, Nat.add_assoc]
      exact hbelow (i + 1) key t m hi hm)
    obtain ⟨own, hown⟩ := (hr.finish t).hoist false
    have hstep := hbelow 0 key t m rfl rfl
    have hname : nameAt? ctx s name [.property (k + 0)] = givenName m := nameAt?_cons hstep []
    refine ⟨own.map (.property (k + 0) :: ·) ++ sites, ?_, ?_⟩
    · intro p hp
      rcases List.mem_append.1 hp with hp | hp
      · obtain ⟨rest, -, rfl⟩ := List.mem_map.1 hp
        exact ⟨0, rest, m, List.mem_cons_self .., rfl, hname⟩
      · obtain ⟨i, rest, m', hm', rfl, hi⟩ := hheads p hp
        rw [Nat.add_right_comm, Nat.add_assoc] at hi ⊢
        exact ⟨i + 1, rest, m', List.mem_cons_of_mem _ hm', rfl, hi⟩
    · rw [declarationsOf, List.flatMap_cons, typesOf_append]
      refine (hown.below hstep).append hsited ?_ ?_
      · intro p hp q hq heq
        obtain ⟨rest, -, rfl⟩ := List.mem_map.1 hp
        obtain ⟨i, rest', m', -, rfl, -⟩ := hheads q hq
        simp only [List.head?_cons, Option.some.injEq, Step.property.injEq] at heq
        omega
      · intro a b ha hb
        obtain ⟨d, -, hd⟩ := (hown.below hstep).exists_name ha
        obtain ⟨rest, -, harest⟩ := List.mem_map.1 ha
        obtain ⟨i, rest', m', hm', hbrest, hi⟩ := hheads _ hb
        obtain ⟨rfl, -⟩ := List.cons.inj harest
        obtain ⟨rfl, -⟩ := List.cons.inj hbrest
        rw [hname] at hd ⊢
        rw [hi]
        exact hapart.1 m' hm' (by simp [hd])

/-- A part with declarations is counted for those after it. -/
theorem nextCount_add (count : Nat) (r : Resolved) (types : List Resolved) (i : Nat) :
    nextCount count r + countDeclaring (types.take i) =
      count + countDeclaring ((r :: types).take (i + 1)) := by
  rw [List.take_succ_cons, countDeclaring, countDeclaring, List.countP_cons, nextCount]
  cases r.declarations.isEmpty
  · simp only [Bool.false_eq_true, if_false, Bool.not_false, if_true]
    omega
  · simp

/-- Each part of a composition declares types at sites below it. Names are numbered by the parts
with declarations, of which there were `count` before. -/
theorem sited_parts {base : Option String} {count : Nat} {schemas : List Schema}
    {types : List Resolved} (h : PartTypes (SitedBelow ctx) base count schemas types) (k : Nat)
    (hbelow : ∀ i t, schemas[i]? = some t → below? ctx s name (.part (k + i)) =
      some (t, numbered base (count + countDeclaring (types.take i)))) :
    ∃ sites, (∀ p ∈ sites, ∃ i rest c, p = .part (k + i) :: rest ∧ count ≤ c ∧
        nameAt? ctx s name [.part (k + i)] = numbered base c) ∧
      Sited ctx s name sites (typesOf (declarationsOf types)) := by
  induction h generalizing k with
  | nil => exact ⟨[], by simp, .nil⟩
  | @cons count t r schemas types hr _ ih =>
    obtain ⟨sites, hheads, hsited⟩ := ih (k + 1) (by
      intro i t hi
      rw [Nat.add_right_comm, Nat.add_assoc, nextCount_add]
      exact hbelow (i + 1) t hi)
    obtain ⟨own, hown⟩ := (hr.finish t).hoist true
    have hstep : below? ctx s name (.part (k + 0)) = some (t, numbered base count) :=
      hbelow 0 t rfl
    have hname : nameAt? ctx s name [.part (k + 0)] = numbered base count := nameAt?_cons hstep []
    refine ⟨own.map (.part (k + 0) :: ·) ++ sites, ?_, ?_⟩
    · intro p hp
      rcases List.mem_append.1 hp with hp | hp
      · obtain ⟨rest, -, rfl⟩ := List.mem_map.1 hp
        exact ⟨0, rest, count, rfl, Nat.le_refl _, hname⟩
      · obtain ⟨i, rest, c, rfl, hc, hi⟩ := hheads p hp
        rw [Nat.add_right_comm, Nat.add_assoc] at hi ⊢
        refine ⟨i + 1, rest, c, rfl, Nat.le_trans ?_ hc, hi⟩
        unfold nextCount
        split <;> omega
    · rw [declarationsOf, List.flatMap_cons, typesOf_append]
      refine (hown.below hstep).append hsited ?_ ?_
      · intro p hp q hq heq
        obtain ⟨rest, -, rfl⟩ := List.mem_map.1 hp
        obtain ⟨i, rest', c, rfl, -, -⟩ := hheads q hq
        simp only [List.head?_cons, Option.some.injEq, Step.part.injEq] at heq
        omega
      · -- a part that declares a type is counted, so what comes later has a higher number
        intro a b ha hb heq
        obtain ⟨d, hd, hnamed⟩ := (hown.below hstep).exists_name ha
        obtain ⟨rest, -, harest⟩ := List.mem_map.1 ha
        obtain ⟨i, rest', c, hbrest, hc, hi⟩ := hheads _ hb
        obtain ⟨rfl, -⟩ := List.cons.inj harest
        obtain ⟨rfl, -⟩ := List.cons.inj hbrest
        have hdeclares : (hoist (numbered base count) true (finish t r)).declarations.isEmpty =
            false := by
          rw [List.isEmpty_eq_false_iff]
          exact List.ne_nil_of_mem (List.mem_filter.1 hd).1
        rw [nextCount, hdeclares] at hc
        rw [hname] at hnamed heq
        rw [hi] at heq
        have hsame := numbered_inj (by simp [hnamed]) heq
        simp only [Bool.false_eq_true, if_false] at hc
        omega

end

/-! ## The declarations of types -/

theorem below?_property {ctx : Context} {raw : Members} {properties : List (Atom × Schema)}
    {name : Option String} {names : List (Option String)}
    (hnames : childNames ctx name (properties.map fun p => .atom p.1) = .ok names) {i : Nat}
    {key : Atom} {t : Schema} {m : Option String} (hi : properties[i]? = some (key, t))
    (hm : names[i]? = some m) :
    below? ctx (.object raw properties) name (.property i) = some (t, givenName m) := by
  simp [below?, hnames, hi, hm, Except.toOption]

theorem below?_part {ctx : Context} {raw : Members} {keyword : Keyword} {schemas : List Schema}
    {name : Option String} {types : List Resolved}
    (h : PartTypes (fun s name r => (shape ctx s name).outcome = .ok r) (partName name keyword) 0
      schemas types) {i : Nat} {t : Schema} (hi : schemas[i]? = some t) :
    below? ctx (.composition raw keyword schemas) name (.part i) =
      some (t, numbered (partName name keyword) (countDeclaring (types.take i))) := by
  simp [below?, hi, declaringBefore, parts_of_partTypes (h.take i)]

/-- The declarations of a schema's type come from different sites of it, and are named by them. -/
theorem siteLaws (ctx : Context) :
    ShapeLaws ctx fun s name r =>
      (shape ctx s name).outcome = .ok r ∧ SitedBelow ctx s name r where
  reference raw ref name r h := by
    refine ⟨(outcomeLaws ctx).reference raw ref name r h, [], by simp, ?_⟩
    obtain ⟨info, target, deeper, -, -, rfl⟩ := reference_ok h
    exact .nil
  primitive raw name := by
    refine ⟨(outcomeLaws ctx).primitive raw name, [], by simp, ?_⟩
    unfold primitive
    dsimp only
    split_ifs <;> exact .nil
  enum raw values name := ⟨(outcomeLaws ctx).enum raw values name, [], by simp, .nil⟩
  bare raw name := ⟨(outcomeLaws ctx).bare raw name, [], by simp, .nil⟩
  openRecord raw name := ⟨(outcomeLaws ctx).openRecord raw name, [], by simp, .nil⟩
  anyArray raw name := ⟨(outcomeLaws ctx).anyArray raw name, [], by simp, .nil⟩
  array raw items name r h := by
    obtain ⟨sites, hsited⟩ := (h.2.finish items).hoist false
    exact ⟨(outcomeLaws ctx).array raw items name r h.1, sites.map (.items :: ·), by simp,
      hsited.below rfl⟩
  record raw values name r h := by
    obtain ⟨sites, -, hsited⟩ := h.2.finish values
    exact ⟨(outcomeLaws ctx).record raw values name r h.1, sites.map (.values :: ·), by simp,
      hsited.below rfl⟩
  object raw properties name names types r hnames htypes h := by
    have hbelow : ∀ i key t m, properties[i]? = some (key, t) → names[i]? = some m →
        below? ctx (.object raw properties) name (.property (0 + i)) = some (t, givenName m) := by
      intro i key t m hi hm
      rw [Nat.zero_add]
      exact below?_property hnames hi hm
    obtain ⟨sites, hheads, hsited⟩ := sited_members (htypes.imp fun _ _ _ hr => hr.2)
      (childNames_apart hnames) 0 hbelow
    refine ⟨(outcomeLaws ctx).object raw properties name names types r hnames
      (htypes.imp fun _ _ _ hr => hr.1) h, sites, fun hnil => ?_, ?_⟩
    · obtain ⟨i, rest, m, -, hcons, -⟩ := hheads [] hnil
      cases hcons
    · obtain ⟨members, -, h⟩ := Except.bind_eq_ok.1 h
      obtain rfl := by simpa [pure, Except.pure] using h
      exact hsited
  composition raw keyword schemas name types h := by
    have hbelow : ∀ i t, schemas[i]? = some t →
        below? ctx (.composition raw keyword schemas) name (.part (0 + i)) =
          some (t, numbered (partName name keyword) (0 + countDeclaring (types.take i))) := by
      intro i t hi
      rw [Nat.zero_add, Nat.zero_add]
      exact below?_part (h.imp fun _ _ _ hr => hr.1) hi
    obtain ⟨sites, hheads, hsited⟩ := sited_parts (h.imp fun _ _ _ hr => hr.2) 0 hbelow
    refine ⟨(outcomeLaws ctx).composition raw keyword schemas name types
      (h.imp fun _ _ _ hr => hr.1), sites, fun hnil => ?_, ?_⟩
    · obtain ⟨i, rest, c, hcons, -, -⟩ := hheads [] hnil
      cases hcons
    · rw [typesOf_combine]
      exact hsited

/-- No two models are put together before declarations are merged. -/
def Apart (r : Resolved) : Prop := ∀ d ∈ r.declarations, d.model.leaves = [d.model]

theorem Apart.finish {r : Resolved} (h : Apart r) (s : Schema) : Apart (finish s r) := by
  unfold Apart
  rw [finish_declarations]
  exact h

theorem Apart.hoist {r : Resolved} (h : Apart r) (name : Option String) (combined : Bool) :
    Apart (hoist name combined r) := by
  unfold Apart
  rcases hoist_declarations name combined r with heq | ⟨n, model, -, -, hmodel, heq⟩
  · rw [heq]
    exact h
  · rw [heq]
    intro d hd
    rcases List.mem_append.1 hd with hd | hd
    · exact h d hd
    · obtain rfl := List.mem_singleton.1 hd
      exact hmodel

theorem Apart.slot (s : Schema) (name : Option String) (combined : Bool) (r : Resolved)
    (h : Apart r) : Apart (Resolve.hoist name combined (Resolve.finish s r)) :=
  (h.finish s).hoist name combined

theorem apart_declarationsOf {types : List Resolved} (h : ∀ r ∈ types, Apart r) :
    ∀ d ∈ declarationsOf types, d.model.leaves = [d.model] := by
  intro d hd
  obtain ⟨r, hr, hd⟩ := List.mem_flatMap.1 hd
  exact h r hr d hd

theorem apartLaws (ctx : Context) : ShapeLaws ctx fun _ _ r => Apart r where
  reference raw ref name r h := by
    obtain ⟨info, target, deeper, -, -, rfl⟩ := reference_ok h
    simp [Apart]
  primitive raw name := by
    unfold primitive
    dsimp only
    split_ifs <;> simp [Apart, Resolved.plain]
  enum raw values name := by simp [Apart, enum, Resolved.plain]
  bare raw name := by simp [Apart, bare, Resolved.plain]
  openRecord raw name := by simp [Apart, Resolved.plain]
  anyArray raw name := by simp [Apart, Resolved.plain]
  array raw items name r h := (h.finish items).hoist (itemName name) false
  record raw values name r h := h.finish values
  object raw properties name names types r _ htypes h := by
    obtain ⟨members, -, h⟩ := Except.bind_eq_ok.1 h
    obtain rfl := by simpa [pure, Except.pure] using h
    exact apart_declarationsOf (htypes.forall_mem Apart.slot)
  composition raw keyword schemas name types h := by
    have hparts := apart_declarationsOf (h.forall_mem Apart.slot)
    unfold Apart combine
    split
    · simp [Resolved.plain]
    · split
      · split
        · intro d hd
          rcases List.mem_append.1 hd with hd | hd
          · exact hparts d hd
          · obtain rfl := List.mem_singleton.1 hd
            rfl
        · exact hparts
      · exact hparts

end Resolve

/-! ## Names that come again -/

/-- The number of types that a model declares. -/
def Model.typeCount (m : Model) : Nat := m.leaves.countP Model.declaresType

/-- Merging puts no two types in one declaration just when their names differ. -/
theorem typeCount_merge {ds : List Declaration} (h : ∀ d ∈ ds, d.model.leaves = [d.model]) :
    (∀ m ∈ Declaration.merge ds, m.model.typeCount ≤ 1) ↔
      ((Resolve.typesOf ds).map (·.name)).Nodup := by
  have hcount : ∀ m ∈ Declaration.merge ds,
      m.model.typeCount = ((Resolve.typesOf ds).map (·.name)).count m.name := by
    intro m hm
    have hleaves : (ds.filter (·.name = m.name)).flatMap (·.model.leaves) =
        (ds.filter (·.name = m.name)).map (·.model) := by
      rw [List.map_eq_flatMap]
      refine List.flatMap_congr fun d hd => ?_
      exact h d (List.mem_filter.1 hd).1
    rw [Model.typeCount, Declaration.leaves_merge hm, hleaves, List.countP_map, List.countP_filter,
      List.count, List.countP_map, Resolve.typesOf, List.countP_filter]
    refine List.countP_congr fun d _ => ?_
    simp [and_comm]
  rw [List.nodup_iff_count_le_one]
  constructor
  · intro hmerge n
    by_cases hn : n ∈ (Resolve.typesOf ds).map (·.name)
    · obtain ⟨d, hd, rfl⟩ := List.mem_map.1 hn
      obtain ⟨m, hm, hname⟩ :=
        ((Declaration.gathers_merge ds).names d.name).2 ⟨d, (List.mem_filter.1 hd).1, rfl⟩
      rw [← hname, ← hcount m hm]
      exact hmerge m hm
    · rw [List.count_eq_zero.2 hn]
      exact Nat.zero_le 1
  · intro hnames m hm
    rw [hcount m hm]
    exact hnames m.name

/-- The types that are declared for the parts of a schema come from different sites of it, and each
has the name that its site is given. Those one step below one schema have different names. Two of
them come to stand in one declaration just when two sites, so further apart, are given one name. -/
theorem hoisted_names {ctx : Context} {s : Schema} {name : Option String} {r : Resolved}
    (h : (Resolve.value ctx s name).outcome = .ok r) :
    ∃ sites : List Site, sites.Nodup ∧
      List.Forall₂ (fun p d => Resolve.nameAt? ctx s (Resolve.givenName name) p = some d.name) sites
        (Resolve.typesOf r.declarations) ∧
      (∀ site a b, site ++ [a] ∈ sites → site ++ [b] ∈ sites → a ≠ b →
        Resolve.nameAt? ctx s (Resolve.givenName name) (site ++ [a]) ≠
          Resolve.nameAt? ctx s (Resolve.givenName name) (site ++ [b])) ∧
      ((∀ m ∈ Declaration.merge r.declarations, m.model.typeCount ≤ 1) ↔
        ∀ p ∈ sites, ∀ q ∈ sites, p ≠ q →
          Resolve.nameAt? ctx s (Resolve.givenName name) p ≠
            Resolve.nameAt? ctx s (Resolve.givenName name) q) := by
  obtain ⟨q, hq, rfl⟩ := Resolve.value_ok.1 h
  obtain ⟨-, sites, -, hsited⟩ := (Resolve.siteLaws ctx).shape s _ q hq
  have hleaves := (Resolve.apartLaws ctx).shape s _ q hq
  rw [Resolve.finish_declarations]
  refine ⟨sites, hsited.nodup, hsited.named, fun site a b ha hb hne heq => ?_, ?_⟩
  · exact hne (hsited.apart site a b ha hb heq)
  · have hmap : sites.map (Resolve.nameAt? ctx s (Resolve.givenName name)) =
        ((Resolve.typesOf q.declarations).map (·.name)).map some := by
      rw [List.map_map, ← List.forall₂_eq_eq_eq, List.forall₂_map_left_iff,
        List.forall₂_map_right_iff]
      exact hsited.named
    rw [typeCount_merge hleaves, ← List.nodup_map_iff (fun _ _ => Option.some.inj), ← hmap,
      List.nodup_map_iff_inj_on hsited.nodup]
    simp only [ne_eq, not_imp_not]

/-- An object with a member in which another one lies, and a member whose key reads like both. -/
def nestedSchema : Schema :=
  let text : Value := .map [(.text "type", .text "string")]
  let inner : Value := .map [(.text "properties", .map [(.text "x", text)])]
  .ofValue (.map [(.text "properties", .map [
    (.text "a", .map [(.text "properties", .map [(.text "b", inner)])]),
    (.text "aB", .map [(.text "properties", .map [(.text "y", text)])])])])

theorem hoisted_names_nested :
    ∃ r, (Resolve.value (.start [] "/api.json" (.map [])) nestedSchema (some "Pet")).outcome =
        .ok r ∧
      ∃ sites : List Site, sites.Nodup ∧
        List.Forall₂ (fun p d => Resolve.nameAt? (.start [] "/api.json" (.map [])) nestedSchema
          (some "Pet") p = some d.name) sites (Resolve.typesOf r.declarations) := by
  obtain ⟨r, hr, -⟩ := Except.exists_of_any
    (x := (Resolve.value (.start [] "/api.json" (.map [])) nestedSchema (some "Pet")).outcome)
    (p := fun _ => true) (by decide +kernel)
  obtain ⟨sites, hnodup, hnamed, -⟩ := hoisted_names hr
  exact ⟨r, hr, sites, hnodup, hnamed⟩

/-- What lies in one member and what the other one is are declared as one. -/
theorem hoisted_names_glued :
    ∃ r, (Resolve.value (.start [] "/api.json" (.map [])) nestedSchema (some "Pet")).outcome =
        .ok r ∧
      (Resolve.typesOf r.declarations).map (·.name) = ["PetAB", "PetA", "PetAB"] ∧
      ∃ m ∈ Declaration.merge r.declarations, m.name = "PetAB" ∧ m.model.typeCount = 2 := by
  obtain ⟨r, hr, h⟩ := Except.exists_of_any
    (x := (Resolve.value (.start [] "/api.json" (.map [])) nestedSchema (some "Pet")).outcome)
    (p := fun r => (Resolve.typesOf r.declarations).map (·.name) = ["PetAB", "PetA", "PetAB"] ∧
      (Declaration.merge r.declarations).any fun m => m.name = "PetAB" ∧ m.model.typeCount = 2)
    (by decide +kernel)
  obtain ⟨hnames, hany⟩ := of_decide_eq_true h
  obtain ⟨m, hm, hglued⟩ := List.any_eq_true.1 hany
  exact ⟨r, hr, hnames, m, hm, of_decide_eq_true hglued⟩

end ApiTypes

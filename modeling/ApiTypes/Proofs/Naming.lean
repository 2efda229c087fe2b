import ApiTypes.Proofs.Sites

/-!
# How declarations get their names

* `Resolve.MemberName` : the names that a member of a declaration can get;
* `Resolve.Named` : the names that are given in a schema, each at a site of it: to a part of what is
  there, or to the values of a composition of enums;
* `Resolve.namedLaws` : the declarations of a type have such names, and a schema that is read
  without a name gives none (`Resolve.not_named`);
* `Resolve.value_named`, `Resolve.slot_named` : the same of schemas in their places.
-/

namespace ApiTypes.Resolve

/-! ## Names of members -/

/-- A name that a member can get: the one made for its key, with a number if a sibling has that. -/
inductive MemberName (ctx : Context) (parent : String) (key : Value) : String → Prop
  | child {name : String} (h : childName ctx parent key = .ok name) : MemberName ctx parent key name
  | again {name : String} {number : Nat} (h : childName ctx parent key = .ok name)
      (hnumber : 2 ≤ number) : MemberName ctx parent key (name ++ toString number)

theorem le_freeNumber (used : List String) (name : String) (tries n : Nat) :
    n ≤ freeNumber used name tries n := by
  induction tries generalizing n with
  | zero => exact Nat.le_refl n
  | succ tries ih =>
    rw [freeNumber]
    split
    · exact Nat.le_trans (Nat.le_succ n) (ih (n + 1))
    · exact Nat.le_refl n

section
variable {ctx : Context} {keys : List Value}

theorem childNamesFrom_named {parent : String} {used names : List String}
    (h : childNamesFrom ctx parent used keys = .ok names) :
    List.Forall₂ (MemberName ctx parent) keys names := by
  induction keys generalizing used names with
  | nil =>
    obtain rfl : [] = names := by simpa [childNamesFrom] using h
    exact .nil
  | cons key rest ih =>
    rw [childNamesFrom] at h
    obtain ⟨child, hchild, h⟩ := Except.bind_eq_ok.1 h
    obtain ⟨later, hlater, h⟩ := Except.bind_eq_ok.1 h
    obtain rfl : freeName used child :: later = names := by simpa [pure, Except.pure] using h
    refine .cons ?_ (ih hlater)
    unfold freeName
    split
    · exact .again hchild (le_freeNumber ..)
    · exact .child hchild

/-- Only the members of a declaration with a name get names. -/
theorem childNames_named {parent : Option String} {names : List (Option String)}
    (h : childNames ctx parent keys = .ok names) {key : Value} {n : String}
    (hkey : (key, some n) ∈ keys.zip names) :
    ∃ p, parent = some p ∧ MemberName ctx p key n := by
  unfold childNames at h
  split at h
  · obtain rfl : (keys.map fun _ => none) = names := by simpa using h
    obtain ⟨_, -, hnone⟩ := List.mem_map.1 (List.of_mem_zip hkey).2
    cases hnone
  · rename_i p hp
    obtain ⟨texts, htexts, h⟩ := Except.bind_eq_ok.1 h
    obtain rfl : texts.map some = names := by simpa [pure, Except.pure] using h
    rw [List.zip_map_right] at hkey
    obtain ⟨⟨k, m⟩, hmem, heq⟩ := List.mem_map.1 hkey
    obtain ⟨rfl, rfl⟩ : k = key ∧ m = n := by simpa using heq
    exact ⟨p, (Option.filter_eq_some_iff.1 hp).1,
      List.forall₂_zip (childNamesFrom_named htexts) hmem⟩

end

/-! ## Parts and their names -/

section
variable {P : Schema → Option String → Resolved → Prop}

theorem MemberTypes.exists_of_mem {properties : List (Atom × Schema)}
    {names : List (Option String)} {types : List Resolved}
    (h : MemberTypes P properties names types) {r : Resolved} (hr : r ∈ types) :
    ∃ (i : Nat) (key : Atom) (s : Schema) (m : Option String) (q : Resolved),
      properties[i]? = some (key, s) ∧ names[i]? = some m ∧ P s (givenName m) q ∧
        r = hoist (givenName m) false (finish s q) := by
  induction h with
  | nil => cases hr
  | @cons key s m q properties names types hq _ ih =>
    rcases List.mem_cons.1 hr with rfl | hr
    · exact ⟨0, key, s, m, q, rfl, rfl, hq, rfl⟩
    · obtain ⟨i, key, s, m, q, hi, hm, hq, rfl⟩ := ih hr
      exact ⟨i + 1, key, s, m, q, hi, hm, hq, rfl⟩

theorem PartTypes.exists_of_mem {name : Option String} {count : Nat} {schemas : List Schema}
    {types : List Resolved} (h : PartTypes P name count schemas types) {r : Resolved}
    (hr : r ∈ types) :
    ∃ i s q, schemas[i]? = some s ∧
      P s (numbered name (count + countDeclaring (types.take i))) q ∧
      r = hoist (numbered name (count + countDeclaring (types.take i))) true (finish s q) := by
  induction h with
  | nil => cases hr
  | @cons count s q schemas types hq _ ih =>
    rcases List.mem_cons.1 hr with rfl | hr
    · exact ⟨0, s, q, rfl, hq, rfl⟩
    · obtain ⟨i, t, p, hi, hp, hr⟩ := ih hr
      rw [nextCount_add] at hp hr
      exact ⟨i + 1, t, p, hi, hp, hr⟩

end

/-- A name that is given in a schema: to a part of what is at a site, or to the values of a
composition there. The values of an object of any keys are read under the name of the object, so
they get none of their own. -/
inductive Named (ctx : Context) (s : Schema) (name : Option String) : String → Prop
  | part {site : Site} {step : Step} {t u : Schema} {m : Option String} {n : String}
      (hsite : at? ctx s name site = some (t, m)) (hstep : step ≠ .values)
      (hbelow : below? ctx t m step = some (u, some n)) : Named ctx s name n
  | values {site : Site} {raw : Members} {keyword : Keyword} {schemas : List Schema} {n : String}
      (hsite : at? ctx s name site = some (.composition raw keyword schemas, some n)) :
      Named ctx s name (Name.pascal n)

section
variable {ctx : Context} {s t : Schema} {name n : Option String} {step : Step}

theorem at?_nil (ctx : Context) (s : Schema) (name : Option String) :
    at? ctx s name [] = some (s, name) := rfl

theorem at?_cons (h : below? ctx s name step = some (t, n)) (site : Site) :
    at? ctx s name (step :: site) = at? ctx t n site := by
  rw [at?, h, Option.bind_some]

/-- What is named in a part is named in the whole. -/
theorem Named.below {m : String} (h : Named ctx t n m)
    (hstep : below? ctx s name step = some (t, n)) : Named ctx s name m := by
  cases h with
  | part hsite hvalues hbelow => exact .part ((at?_cons hstep _).trans hsite) hvalues hbelow
  | values hsite => exact .values ((at?_cons hstep _).trans hsite)

/-- A part whose declarations are named in it adds its own name. -/
theorem named_slot {r : Resolved} (h : ∀ d ∈ r.declarations, Named ctx t n d.name)
    (hstep : below? ctx s name step = some (t, n)) (hvalues : step ≠ .values) (combined : Bool) :
    ∀ d ∈ (hoist n combined (finish t r)).declarations, Named ctx s name d.name := by
  intro d hd
  rcases hoist_declarations n combined (finish t r) with heq | ⟨own, model, rfl, -, -, heq⟩
  · rw [heq, finish_declarations] at hd
    exact (h d hd).below hstep
  · rw [heq, finish_declarations] at hd
    rcases List.mem_append.1 hd with hd | hd
    · exact (h d hd).below hstep
    · obtain rfl := List.mem_singleton.1 hd
      exact .part (at?_nil ..) hvalues hstep

/-- What is one step below an object by one of its properties. -/
theorem below?_property_ok {raw : Members} {properties : List (Atom × Schema)} {i : Nat}
    (h : below? ctx (.object raw properties) name (.property i) = some (t, n)) :
    ∃ names p m, childNames ctx name (properties.map fun p => .atom p.1) = .ok names ∧
      properties[i]? = some p ∧ names[i]? = some m ∧ t = p.2 ∧ n = givenName m := by
  obtain ⟨names, hnames, h⟩ := Option.bind_eq_some_iff.1 h
  obtain ⟨p, hp, h⟩ := Option.bind_eq_some_iff.1 h
  obtain ⟨m, hm, h⟩ := Option.bind_eq_some_iff.1 h
  obtain ⟨rfl, rfl⟩ := Prod.mk.inj (Option.some.inj h)
  refine ⟨names, p, m, ?_, hp, hm, rfl, rfl⟩
  cases hok : childNames ctx name (properties.map fun p => .atom p.1) with
  | error e => simp [hok, Except.toOption] at hnames
  | ok found => simpa [hok, Except.toOption] using hnames

/-- It has a name if the object has one, and then one that is made for its key. -/
theorem memberName_of_below? {raw : Members} {properties : List (Atom × Schema)} {i : Nat}
    {m : String} (h : below? ctx (.object raw properties) name (.property i) = some (t, some m)) :
    m ≠ "" ∧ ∃ p ∈ properties, ∃ parent, name = some parent ∧
      MemberName ctx parent (.atom p.1) m := by
  obtain ⟨names, p, own, hnames, hp, hown, -, hgiven⟩ := below?_property_ok h
  obtain ⟨rfl, hne⟩ := Option.filter_eq_some_iff.1 hgiven.symm
  have hzip : (.atom p.1, some m) ∈ (properties.map fun p => Value.atom p.1).zip names := by
    apply List.mem_of_getElem? (i := i)
    rw [List.getElem?_zip_eq_some, List.getElem?_map, hp]
    exact ⟨rfl, hown⟩
  obtain ⟨parent, hparent, hname⟩ := childNames_named hnames hzip
  exact ⟨by simpa using hne, p, List.mem_of_getElem? hp, parent, hparent, hname⟩

/-! ## Declarations and their names -/

/-- Each declaration of a schema's type has a name that is given in the schema. -/
theorem namedLaws (ctx : Context) :
    ShapeLaws ctx fun s name r =>
      (shape ctx s name).outcome = .ok r ∧ ∀ d ∈ r.declarations, Named ctx s name d.name where
  reference raw ref name r h := by
    refine ⟨(outcomeLaws ctx).reference raw ref name r h, ?_⟩
    obtain ⟨info, target, deeper, -, -, rfl⟩ := reference_ok h
    simp
  primitive raw name := by
    refine ⟨(outcomeLaws ctx).primitive raw name, ?_⟩
    unfold primitive
    dsimp only
    split_ifs <;> simp [Resolved.plain]
  enum raw values name := ⟨(outcomeLaws ctx).enum raw values name, by simp [enum, Resolved.plain]⟩
  bare raw name := ⟨(outcomeLaws ctx).bare raw name, by simp [bare, Resolved.plain]⟩
  openRecord raw name := ⟨(outcomeLaws ctx).openRecord raw name, by simp [Resolved.plain]⟩
  anyArray raw name := ⟨(outcomeLaws ctx).anyArray raw name, by simp [Resolved.plain]⟩
  array raw items name r h := by
    have hitems : below? ctx (.array raw (some items)) name .items = some (items, itemName name) :=
      rfl
    exact ⟨(outcomeLaws ctx).array raw items name r h.1, named_slot h.2 hitems (by simp) false⟩
  record raw values name r h := by
    refine ⟨(outcomeLaws ctx).record raw values name r h.1, fun d hd => ?_⟩
    have hvalues : below? ctx (.record raw values) name .values = some (values, name) := rfl
    have hmem : d ∈ (finish values r).declarations := hd
    rw [finish_declarations] at hmem
    exact (h.2 d hmem).below hvalues
  object raw properties name names types r hnames htypes h := by
    refine ⟨(outcomeLaws ctx).object raw properties name names types r hnames
      (htypes.imp fun _ _ _ hr => hr.1) h, fun d hd => ?_⟩
    obtain ⟨members, -, h⟩ := Except.bind_eq_ok.1 h
    obtain rfl := by simpa [pure, Except.pure] using h
    obtain ⟨q, hq, hd⟩ := List.mem_flatMap.1 hd
    obtain ⟨i, key, t, m, p, hi, hm, hp, rfl⟩ := htypes.exists_of_mem hq
    exact named_slot hp.2 (below?_property hnames hi hm) (by simp) false d hd
  composition raw keyword schemas name types h := by
    refine ⟨(outcomeLaws ctx).composition raw keyword schemas name types
      (h.imp fun _ _ _ hr => hr.1), ?_⟩
    have hparts : ∀ d ∈ declarationsOf types,
        Named ctx (.composition raw keyword schemas) name d.name := by
      intro d hd
      obtain ⟨q, hq, hd⟩ := List.mem_flatMap.1 hd
      obtain ⟨i, t, p, hi, hp, rfl⟩ := h.exists_of_mem hq
      rw [Nat.zero_add] at hp hd
      exact named_slot hp.2 (below?_part (h.imp fun _ _ _ hr => hr.1) hi) (by simp) true d hd
    unfold combine
    split
    · simp [Resolved.plain]
    · split
      · split
        · intro d hd
          rcases List.mem_append.1 hd with hd | hd
          · exact hparts d hd
          · obtain rfl := List.mem_singleton.1 hd
            exact .values (at?_nil ..)
        · exact hparts
      · exact hparts

theorem value_named {r : Resolved} (h : (value ctx s name).outcome = .ok r) :
    ∀ d ∈ r.declarations, Named ctx s (givenName name) d.name := by
  obtain ⟨q, hq, rfl⟩ := value_ok.1 h
  rw [finish_declarations]
  exact ((namedLaws ctx).shape s _ q hq).2

/-- In a slot, there may be one more declaration, under the name of the slot. -/
theorem slot_named {combined : Bool} {r : Resolved}
    (h : (slot ctx s name combined).outcome = .ok r) :
    ∀ d ∈ r.declarations,
      givenName name = some d.name ∨ Named ctx s (givenName name) d.name := by
  obtain ⟨q, hq, rfl⟩ := slot_ok.1 h
  intro d hd
  rcases hoist_declarations (givenName name) combined q with heq | ⟨n, model, hn, -, -, heq⟩
  · rw [heq] at hd
    exact .inr (value_named hq d hd)
  · rw [heq] at hd
    rcases List.mem_append.1 hd with hd | hd
    · exact .inr (value_named hq d hd)
    · obtain rfl := List.mem_singleton.1 hd
      exact .inl hn

/-! ## Without a name -/

theorem below?_none (h : below? ctx s none step = some (t, n)) : n = none := by
  have hbelow := h
  unfold below? at h
  split at h
  · obtain ⟨names, p, m, hnames, -, hm, -, rfl⟩ := below?_property_ok hbelow
    obtain rfl := Except.ok.inj hnames
    obtain ⟨_, -, rfl⟩ := List.mem_map.1 (List.mem_of_getElem? hm)
    rfl
  · exact (Prod.mk.inj (Option.some.inj h)).2.symm
  · exact (Prod.mk.inj (Option.some.inj h)).2.symm
  · obtain ⟨t, -, h⟩ := Option.bind_eq_some_iff.1 h
    exact (Prod.mk.inj (Option.some.inj h)).2.symm
  · cases h

theorem at?_none {site : Site} (h : at? ctx s none site = some (t, n)) : n = none := by
  induction site generalizing s with
  | nil => exact (Prod.mk.inj (Option.some.inj h)).2.symm
  | cons step rest ih =>
    obtain ⟨⟨u, m⟩, hstep, h⟩ := Option.bind_eq_some_iff.1 h
    obtain rfl := below?_none hstep
    exact ih h

/-- A schema that is read without a name gives none. -/
theorem not_named {m : String} : ¬ Named ctx s none m := by
  intro h
  cases h with
  | part hsite _ hbelow =>
    obtain rfl := at?_none hsite
    exact Option.some_ne_none _ (below?_none hbelow)
  | values hsite => exact Option.some_ne_none _ (at?_none hsite)

end
end ApiTypes.Resolve

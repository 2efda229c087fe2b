import ApiTypes.Proofs.ChainEnds
import ApiTypes.Proofs.DeclaredIdentifiers
import ApiTypes.Proofs.Origin
import ApiTypes.Proofs.QuotedTexts
import ApiTypes.Proofs.Siblings
import Mathlib.Data.List.Find

/-!
# Parameters that are declared more than once

* `Keyed.collected` : values that are set one after another; `Keyed.lastOfEach` : of the values with
  one key the last, in the place of the first;
* `Parameter.IsPlain` : names and places that are texts; `Parameter.DeclaredIn` : where a parameter
  is declared, and in which document it is read;
* `Operation.named` : the declared parameters of an operation; `Operation.collect_named` : what is
  collected are the last of each name and place;
* `Operation.namesIn`, `Operation.lastOf?` : the names of one place, and the parameter that counts;
* `Operation.IsPathParam`, `Operation.IsQueryMember`, `Operation.HasInterface` : what is made of the
  parameters that count;
* `merged_parameters` : the path parameters and the params interface of every operation.
-/

namespace ApiTypes

/-! ## First occurrences -/

section

variable {α β : Type} [DecidableEq α] [DecidableEq β]

theorem eraseDups_concat (as : List α) (a : α) :
    (as ++ [a]).eraseDups = if a ∈ as then as.eraseDups else as.eraseDups ++ [a] := by
  rw [List.eraseDups_append]
  split
  · rename_i h
    simp [List.removeAll, h]
  · rename_i h
    have hnew : [a].removeAll as = [a] := by simp [List.removeAll, h]
    rw [hnew, List.eraseDups_cons]
    rfl

theorem nodup_eraseDups (as : List α) : as.eraseDups.Nodup := by
  induction as using List.reverseRecOn with
  | nil => exact .nil
  | append_singleton as a ih =>
    rw [eraseDups_concat]
    split
    · exact ih
    · rename_i h
      refine List.nodup_append'.2 ⟨ih, List.nodup_singleton a, List.disjoint_singleton.2 ?_⟩
      exact fun hmem => h (List.mem_eraseDups.1 hmem)

theorem filter_eraseDups (p : α → Bool) (as : List α) :
    as.eraseDups.filter p = (as.filter p).eraseDups := by
  induction as using List.reverseRecOn with
  | nil => rfl
  | append_singleton as a ih =>
    rw [eraseDups_concat, List.filter_append]
    cases ha : p a with
    | true =>
      rw [List.filter_cons_of_pos ha, List.filter_nil, eraseDups_concat]
      by_cases hmem : a ∈ as
      · rw [if_pos hmem, if_pos (List.mem_filter.2 ⟨hmem, ha⟩), ih]
      · rw [if_neg hmem, if_neg fun h => hmem (List.mem_filter.1 h).1, List.filter_append, ih,
          List.filter_cons_of_pos ha, List.filter_nil]
    | false =>
      rw [List.filter_cons_of_neg (by simp [ha]), List.filter_nil, List.append_nil, ← ih]
      split
      · rfl
      · rw [List.filter_append, List.filter_cons_of_neg (by simp [ha]), List.filter_nil,
          List.append_nil]

theorem eraseDups_map {f : α → β} (hf : Function.Injective f) (as : List α) :
    (as.map f).eraseDups = as.eraseDups.map f := by
  induction as using List.reverseRecOn with
  | nil => rfl
  | append_singleton as a ih =>
    rw [List.map_append, List.map_singleton, eraseDups_concat, eraseDups_concat, ih]
    by_cases h : a ∈ as
    · rw [if_pos h, if_pos (List.mem_map_of_mem h)]
    · rw [if_neg h, if_neg fun hmem => h ((List.mem_map_of_injective hf).1 hmem), List.map_append,
        List.map_singleton]

end

/-! ## Values that are set one after another -/

namespace Keyed

variable {κ α : Type} [DecidableEq κ]

/-- Values set one after another: a later one of a key takes the place of the first. -/
def collected (es : List (κ × α)) : Keyed κ α := es.foldl (fun m e => put m e.1 e.2) []

theorem collected_concat (es : List (κ × α)) (e : κ × α) :
    collected (es ++ [e]) = put (collected es) e.1 e.2 := by
  rw [collected, List.foldl_append]
  rfl

theorem has_iff {m : Keyed κ α} {key : κ} : has m key = true ↔ key ∈ m.map Prod.fst := by
  induction m with
  | nil => simp [has, get?]
  | cons e rest ih =>
    obtain ⟨k, v⟩ := e
    by_cases h : k = key
    · simp [has, get?, h]
    · simpa [has, get?, h, Ne.symm h] using ih

/-- Keys stand in the order in which they come first. -/
theorem keys_collected (es : List (κ × α)) :
    (collected es).map Prod.fst = (es.map Prod.fst).eraseDups := by
  induction es using List.reverseRecOn with
  | nil => rfl
  | append_singleton es e ih =>
    rw [collected_concat, List.map_append, List.map_singleton, eraseDups_concat, ← ih]
    have hmem : e.1 ∈ es.map Prod.fst ↔ has (collected es) e.1 = true := by
      rw [has_iff, ih, List.mem_eraseDups]
    by_cases h : e.1 ∈ es.map Prod.fst
    · rw [if_pos h, keys_put_of_has (hmem.1 h)]
    · rw [if_neg h, keys_put_of_not_has (Bool.eq_false_iff.2 fun hhas => h (hmem.2 hhas))]

/-- The last value of a key counts. -/
theorem get?_collected (es : List (κ × α)) (key : κ) :
    get? (collected es) key = (es.reverse.find? fun e => e.1 = key).map Prod.snd := by
  induction es using List.reverseRecOn with
  | nil => rfl
  | append_singleton es e ih =>
    rw [collected_concat, get?_put, List.reverse_append, List.reverse_singleton,
      List.singleton_append, List.find?_cons]
    by_cases h : e.1 = key
    · rw [if_pos h, decide_eq_true h]
      rfl
    · rw [if_neg h, decide_eq_false h, ih]

theorem get?_of_mem {m : Keyed κ α} (hnodup : (m.map Prod.fst).Nodup) {e : κ × α} (he : e ∈ m) :
    get? m e.1 = some e.2 := by
  induction m with
  | nil => cases he
  | cons d rest ih =>
    obtain ⟨k, v⟩ := d
    rw [List.map_cons, List.nodup_cons] at hnodup
    rw [get?]
    rcases List.mem_cons.1 he with rfl | he
    · rw [if_pos rfl]
    · rw [if_neg fun h => hnodup.1 (List.mem_map.2 ⟨e, he, h.symm⟩), ih hnodup.2 he]

theorem nodup_keys_collected (es : List (κ × α)) : ((collected es).map Prod.fst).Nodup := by
  rw [keys_collected]
  exact nodup_eraseDups _

/-- Every value is the last of its key. -/
theorem find?_of_mem_collected {es : List (κ × α)} {e : κ × α} (he : e ∈ collected es) :
    (es.reverse.find? fun d => d.1 = e.1).map Prod.snd = some e.2 := by
  rw [← get?_collected, get?_of_mem (nodup_keys_collected es) he]

/-- Of the values with one key the last, in the place of the first. -/
def lastOfEach (key : α → κ) (as : List α) : List α :=
  (collected (as.map fun a => (key a, a))).map Prod.snd

section

variable {key : α → κ} {as : List α}

theorem find?_of_mem_entries {e : κ × α} (he : e ∈ collected (as.map fun a => (key a, a))) :
    as.reverse.find? (fun a => key a = e.1) = some e.2 := by
  have hlast := find?_of_mem_collected he
  rw [← List.map_reverse, List.find?_map, Option.map_map] at hlast
  obtain ⟨a, ha, hae⟩ := Option.map_eq_some_iff.1 hlast
  obtain rfl : a = e.2 := hae
  exact ha

theorem key_of_mem_entries {e : κ × α} (he : e ∈ collected (as.map fun a => (key a, a))) :
    key e.2 = e.1 := by
  simpa using List.find?_some (find?_of_mem_entries he)

theorem find?_of_mem_lastOfEach {a : α} (ha : a ∈ lastOfEach key as) :
    as.reverse.find? (fun b => key b = key a) = some a := by
  obtain ⟨e, he, rfl⟩ := List.mem_map.1 ha
  rw [key_of_mem_entries he]
  exact find?_of_mem_entries he

theorem map_lastOfEach : (lastOfEach key as).map key = (as.map key).eraseDups := by
  have hkeys : (lastOfEach key as).map key =
      (collected (as.map fun a => (key a, a))).map Prod.fst := by
    rw [lastOfEach, List.map_map]
    exact List.map_congr_left fun e he => key_of_mem_entries he
  rw [hkeys, keys_collected, List.map_map]
  rfl

end

end Keyed

/-! ## Declared parameters -/

namespace Parameter

/-- A parameter whose name and place are texts. -/
structure IsPlain (p : Parameter) : Prop where
  name : ∃ name, p.name = .text name
  place : ∃ word, place p.members = .text word

theorem isPlain_iff {p : Parameter} :
    p.IsPlain ↔ p.name.text?.isSome = true ∧ (place p.members).text?.isSome = true := by
  have htext : ∀ v : Value, (∃ s, v = .text s) ↔ v.text?.isSome = true := by
    intro v
    constructor
    · rintro ⟨s, rfl⟩
      rfl
    · intro h
      match v, h with
      | .atom (.text s), _ => exact ⟨s, rfl⟩
  rw [← htext, ← htext]
  exact ⟨fun h => ⟨h.name, h.place⟩, fun h => ⟨h.1, h.2⟩⟩

instance (p : Parameter) : Decidable p.IsPlain := decidable_of_iff' _ isPlain_iff

/-- The name of a plain parameter. -/
def nameText (p : Parameter) : String := p.name.text?.getD ""

/-- The name and the place of a plain parameter. -/
def key (p : Parameter) : Atom × Atom := (.text p.nameText, .text ((place p.members).text?.getD ""))

namespace IsPlain

variable {p : Parameter}

theorem key_eq (h : p.IsPlain) {name word : Atom} (hname : Form.key p.name = .ok name)
    (hplace : Form.key (Parameter.place p.members) = .ok word) : p.key = (name, word) := by
  obtain ⟨n, hn⟩ := h.name
  obtain ⟨w, hw⟩ := h.place
  rw [hn] at hname
  rw [hw] at hplace
  obtain rfl : .text n = name := Except.ok.inj hname
  obtain rfl : .text w = word := Except.ok.inj hplace
  rw [key, nameText, hn, hw]
  rfl

theorem name_eq (h : p.IsPlain) : p.name = .text p.nameText := by
  obtain ⟨n, hn⟩ := h.name
  rw [nameText, hn]
  rfl

theorem isIn_iff (h : p.IsPlain) {word : String} :
    p.isIn word = true ↔ p.key = (.text p.nameText, .text word) := by
  obtain ⟨w, hw⟩ := h.place
  rw [isIn, key, hw, decide_eq_true_iff, Prod.mk.injEq, eq_self, true_and]
  exact Option.some_inj.trans (Atom.text.injEq w word ▸ Iff.rfl)

end IsPlain

/-- Where a parameter is declared: in a row of parameters, or at the end of a chain of references
that begins there. It is read in the document in which it stands. -/
inductive DeclaredIn (ctx : Context) (values : List Value) (p : Parameter) : Prop where
  | inPlace (hvalue : .map p.members ∈ values) (hnone : Schema.refOf? p.members = none)
      (howner : p.owner = ctx)
  | referenced {ms : Members} {ref last document : String} {places : List (String × String)}
      {located : Reference.Located} (hvalue : .map ms ∈ values)
      (href : Schema.refOf? ms = some ref)
      (hleads : Reference.Leads ctx ref places document last)
      (hlocated : Reference.locate (ctx.reading document) last = .ok located)
      (hnode : located.node = .map p.members) (hnone : Schema.refOf? p.members = none)
      (howner : p.owner = ctx.along located.document (places ++ [located.place]))

end Parameter

namespace Operation

variable {ctx : Context}

/-- The parameters with a name that some values are or refer to, in their order. -/
def named (ctx : Context) (values : List Value) : Except Fault (List Parameter) := do
  let ps ← (values.filterMap Value.members?).mapM (deref ctx)
  return ps.filter fun p => (p.members.field? "name").isSome

/-- The last of some parameters that has a name and a place. -/
def lastOf? (declared : List Parameter) (name word : String) : Option Parameter :=
  declared.reverse.find? fun p => p.name.text? = some name && p.isIn word

/-- The names of the parameters of a place, in the order in which they come first. -/
def namesIn (declared : List Parameter) (word : String) : List String :=
  ((declared.filter (·.isIn word)).map (·.nameText)).eraseDups

/-- A parameter with a name stands at the end of its chain of references. -/
theorem declaredIn_of_deref {values : List Value} {ms : Members} (hvalue : .map ms ∈ values)
    {p : Parameter} (h : deref ctx ms = .ok p) (hname : (p.members.field? "name").isSome = true) :
    p.DeclaredIn ctx values := by
  unfold deref at h
  split at h
  · rename_i ref href
    obtain ⟨⟨members, owner⟩, hfollow, h⟩ := Except.bind_eq_ok.1 h
    obtain rfl : ⟨members, owner⟩ = p := by simpa [pure, Except.pure] using h
    obtain ⟨places, document, last, hleads, -, -, hends⟩ := Reference.follow_ends ctx ref
    rw [hfollow] at hends
    cases hends with
    | again => cases hname
    | @node located hlocated hnew hnode =>
      cases hmap : located.node with
      | map ms' =>
        rw [hmap] at hname hnode
        exact .referenced hvalue href hleads hlocated hmap hnode rfl
      | list items => 
        rw [hmap] at hname
        cases hname
      | atom a =>
        rw [hmap] at hname
        cases hname
  · rename_i hnone
    obtain rfl : ⟨ms, ctx⟩ = p := by simpa using h
    exact .inPlace hvalue hnone rfl

theorem declaredIn_of_named {values : List Value} {ps : List Parameter}
    (h : named ctx values = .ok ps) : ∀ p ∈ ps, p.DeclaredIn ctx values := by
  obtain ⟨all, hall, h⟩ := Except.bind_eq_ok.1 h
  obtain rfl : all.filter _ = ps := by simpa [pure, Except.pure] using h
  intro p hp
  obtain ⟨hp, hname⟩ := List.mem_filter.1 hp
  obtain ⟨ms, hms, hderef⟩ := exists_left_of_forall₂ (Except.mapM_eq_ok hall) hp
  obtain ⟨v, hv, hmembers⟩ := List.mem_filterMap.1 hms
  cases v with
  | map ms' => exact declaredIn_of_deref (Option.some.inj hmembers ▸ hv) hderef hname
  | list items => cases hmembers
  | atom a => cases hmembers

theorem named_cons_map {ms : Members} {p : Parameter} {rest : List Value} {ps : List Parameter}
    (hp : deref ctx ms = .ok p) (hps : named ctx rest = .ok ps) :
    named ctx (.map ms :: rest) =
      .ok (if (p.members.field? "name").isSome then p :: ps else ps) := by
  obtain ⟨all, hall, h⟩ := Except.bind_eq_ok.1 hps
  obtain rfl : all.filter _ = ps := by simpa [pure, Except.pure] using h
  have hmapM : ((Value.map ms :: rest).filterMap Value.members?).mapM (deref ctx) =
      .ok (p :: all) := by
    have hcons : (Value.map ms :: rest).filterMap Value.members? =
        ms :: rest.filterMap Value.members? := rfl
    rw [hcons, List.mapM_cons, hp, hall]
    rfl
  rw [named, hmapM]
  refine congrArg Except.ok ?_
  rw [List.filter_cons]

/-- Names and places that are texts are one only if they are the same. -/
theorem samePlace_key (k : Atom × Atom) (p : Parameter) :
    samePlace k p.key = decide (k = p.key) := by
  rw [Bool.eq_iff_iff, decide_eq_true_iff, samePlace, Bool.and_eq_true]
  constructor
  · rintro ⟨hname, hplace⟩
    exact Prod.ext (Atom.eq_text_of_same hname) (Atom.eq_text_of_same hplace)
  · rintro rfl
    simp [Parameter.key, Atom.same]

theorem putBy_key (m : Placed) (p : Parameter) :
    m.putBy samePlace p.key p = Keyed.put m p.key p := by
  induction m with
  | nil => rfl
  | cons e rest ih =>
    rw [Keyed.put, Keyed.putBy, Keyed.putBy, samePlace_key, ih]
    rfl

/-- What is collected are the named parameters, set one after another under their names and
places. -/
theorem collect_named {values : List Value} {acc placed : Placed}
    (h : collect ctx acc values = .ok placed) :
    ∃ ps, named ctx values = .ok ps ∧ ((∀ p ∈ ps, p.IsPlain) →
      placed = ps.foldl (fun m p => Keyed.put m p.key p) acc) := by
  induction values generalizing acc with
  | nil =>
    obtain rfl : acc = placed := by simpa [collect] using h
    exact ⟨[], rfl, fun _ => rfl⟩
  | cons v rest ih =>
    cases v with
    | list items => exact ih h
    | atom a => exact ih h
    | map ms =>
      rw [collect] at h
      obtain ⟨p, hp, h⟩ := Except.bind_eq_ok.1 h
      split at h
      · rename_i hnone
        obtain ⟨ps, hps, hplaced⟩ := ih h
        exact ⟨_, named_cons_map hp hps, by rwa [hnone]⟩
      · rename_i name hname
        obtain ⟨key, hkey, h⟩ := Except.bind_eq_ok.1 h
        obtain ⟨place, hplace, h⟩ := Except.bind_eq_ok.1 h
        obtain ⟨ps, hps, hplaced⟩ := ih h
        refine ⟨_, named_cons_map hp hps, ?_⟩
        rw [hname, if_pos Option.isSome_some, List.forall_mem_cons, List.foldl_cons]
        rintro ⟨hplain, hrest⟩
        have hkeys : p.key = (key, place) := by
          have hnamed : p.name = name := by rw [Parameter.name, hname, Option.getD_some]
          exact hplain.key_eq (hnamed ▸ hkey) hplace
        rw [hplaced hrest, ← hkeys, putBy_key]

theorem parameters_named {pathItem operation : Members} {params : List Parameter}
    (h : parameters ctx pathItem operation = .ok params) :
    ∃ shared own declared, Form.optionalRow (pathItem.field? "parameters") = .ok shared ∧
      Form.optionalRow (operation.field? "parameters") = .ok own ∧
      named ctx (shared ++ own) = .ok declared ∧ ((∀ p ∈ declared, p.IsPlain) →
        params = Keyed.lastOfEach Parameter.key declared) := by
  obtain ⟨shared, own, placed, hshared, hown, hplaced, rfl⟩ := parameters_ok h
  obtain ⟨declared, hdeclared, hall⟩ := collect_named hplaced
  refine ⟨shared, own, declared, hshared, hown, hdeclared, fun hplain => ?_⟩
  rw [hall hplain, Keyed.lastOfEach, Keyed.collected, List.foldl_map]

/-! ## Merged parameters -/

theorem mem_of_mem_lastOfEach {declared : List Parameter} {p : Parameter}
    (hp : p ∈ Keyed.lastOfEach Parameter.key declared) : p ∈ declared :=
  List.mem_reverse.1 (List.mem_of_find?_eq_some (Keyed.find?_of_mem_lastOfEach hp))

/-- Plain parameters of one place have their keys by their names. -/
theorem map_key_filter {ps : List Parameter} (hplain : ∀ p ∈ ps, p.IsPlain) (word : String) :
    (ps.map Parameter.key).filter (fun k => k.2 = .text word) =
      ((ps.filter (·.isIn word)).map Parameter.nameText).map
        fun name => (.text name, .text word) := by
  rw [List.filter_map, List.map_map]
  have hsame : ps.filter ((fun k => decide (k.2 = .text word)) ∘ Parameter.key) =
      ps.filter (·.isIn word) := by
    refine List.filter_congr fun p hp => ?_
    rw [Bool.eq_iff_iff, (hplain p hp).isIn_iff, Function.comp_apply, decide_eq_true_iff]
    exact ⟨fun h => Prod.ext rfl h, fun h => congrArg Prod.snd h⟩
  rw [hsame]
  refine List.map_congr_left fun p hp => ?_
  obtain ⟨hp, hin⟩ := List.mem_filter.1 hp
  exact (hplain p hp).isIn_iff.1 hin

/-- The merged parameters of a place have the names that are declared for it, each once and in the
order in which they come first. -/
theorem names_lastOfEach {declared : List Parameter} (hplain : ∀ p ∈ declared, p.IsPlain)
    (word : String) :
    ((Keyed.lastOfEach Parameter.key declared).filter (·.isIn word)).map Parameter.nameText =
      namesIn declared word := by
  have hinj : Function.Injective fun name : String => (Atom.text name, Atom.text word) := by
    intro m n h
    exact Atom.text.inj (congrArg Prod.fst h)
  refine hinj.list_map ?_
  rw [← map_key_filter fun p hp => hplain p (mem_of_mem_lastOfEach hp), Keyed.map_lastOfEach,
    filter_eraseDups, map_key_filter hplain, eraseDups_map hinj]
  rfl

/-- Each of them is the last that was declared with its name. -/
theorem lastOf?_of_mem {declared : List Parameter} (hplain : ∀ p ∈ declared, p.IsPlain)
    {word : String} {p : Parameter}
    (hp : p ∈ (Keyed.lastOfEach Parameter.key declared).filter (·.isIn word)) :
    p.name = .text p.nameText ∧ lastOf? declared p.nameText word = some p := by
  obtain ⟨hp, hin⟩ := List.mem_filter.1 hp
  refine ⟨(hplain p (mem_of_mem_lastOfEach hp)).name_eq, ?_⟩
  rw [← Keyed.find?_of_mem_lastOfEach hp]
  refine List.find?_congr fun q hq => ?_
  have hq := hplain q (List.mem_reverse.1 hq)
  rw [(hplain p (mem_of_mem_lastOfEach hp)).isIn_iff.1 hin]
  rw [Bool.eq_iff_iff, Bool.and_eq_true, decide_eq_true_iff, decide_eq_true_iff, hq.isIn_iff,
    hq.name_eq]
  constructor
  · rintro ⟨hname, hkey⟩
    rw [hkey]
    exact Prod.ext (congrArg Atom.text (Option.some.inj hname)) rfl
  · intro hkey
    have hname : q.nameText = p.nameText := Atom.text.inj (congrArg Prod.fst hkey)
    exact ⟨congrArg some hname, by rw [hkey, hname]⟩

end Operation

/-! ## Names of members -/

namespace Name

theorem pascal_ne_empty {s : String} (h : 'a' ∈ s.toList) : pascal s ≠ "" := by
  intro hempty
  rcases begins_pascal s with ⟨-, hwell⟩ | ⟨-, hnone, -⟩ | ⟨-, hbadly⟩
  · rw [hempty] at hwell
    cases hwell
  · have hlower : s.toList.any Char.isLower = true := List.any_eq_true.2 ⟨'a', h, by decide⟩
    rw [firstWordChar?, if_pos hlower] at hnone
    exact List.find?_eq_none.1 hnone 'a' h (by decide)
  · rw [hempty] at hbadly
    cases hbadly

end Name

namespace Resolve

theorem childNamesFrom_ne_empty {ctx : Context} {parent : String}
    (hparent : Name.pascal parent ≠ "") {used : List String} {keys : List Value}
    {names : List String} (h : childNamesFrom ctx parent used keys = .ok names) : "" ∉ names := by
  have happend : ∀ {s : String} (t : String), s ≠ "" → s ++ t ≠ "" :=
    fun t hs h => hs (String.append_eq_empty_iff.1 h).1
  induction keys generalizing used names with
  | nil =>
    obtain rfl : [] = names := by simpa [childNamesFrom] using h
    simp
  | cons key rest ih =>
    rw [childNamesFrom] at h
    obtain ⟨child, hchild, h⟩ := Except.bind_eq_ok.1 h
    obtain ⟨later, hlater, h⟩ := Except.bind_eq_ok.1 h
    obtain rfl : freeName used child :: later = names := by simpa [pure, Except.pure] using h
    have hne : child ≠ "" := by
      obtain ⟨own, -, rfl | rfl⟩ := childName_ok hchild
      · exact happend _ hparent
      · exact happend _ (happend _ hparent)
    rw [List.mem_cons, not_or]
    refine ⟨?_, ih hlater⟩
    unfold freeName
    split
    · exact (happend _ hne).symm
    · exact hne.symm

/-- Members of a declaration whose name makes names have names, which differ. -/
theorem exists_childNames {ctx : Context} {parent : String} (hparent : Name.pascal parent ≠ "")
    (hne : parent ≠ "") {keys : List Value} {names : List (Option String)}
    (h : childNames ctx (some parent) keys = .ok names) :
    ∃ texts : List String, names = texts.map some ∧ texts.Nodup ∧ "" ∉ texts := by
  have hgiven : (some parent).filter (· ≠ "") = some parent := by
    rw [Option.filter_some, decide_eq_true hne]
    rfl
  rw [childNames, hgiven] at h
  change (childNamesFrom ctx parent [] keys >>= fun texts => pure (texts.map some)) = .ok names at h
  obtain ⟨texts, htexts, h⟩ := Except.bind_eq_ok.1 h
  obtain rfl : texts.map some = names := by simpa [pure, Except.pure] using h
  have hempty := childNamesFrom_ne_empty hparent htexts
  refine ⟨texts, rfl, (childNamesFrom_apart htexts).2.imp_of_mem fun hm _ h => h ?_, hempty⟩
  rintro rfl
  exact hempty hm

end Resolve

/-! ## Members of the interface -/

namespace Operation

/-- The members of the interface, side by side with the parameters. -/
theorem paramMembers_ok {ps : List Parameter} {rs : List Resolved}
    {members : List (MemberHead × TypeExpr)} (hlength : rs.length = ps.length)
    (h : paramMembers ps rs = .ok members) :
    List.Forall₂ (fun (x : Parameter × Resolved) m => x.1.name = .text m.1.key ∧
      m = (⟨x.1.comment?, false, m.1.key, !Value.flag x.1.members "required"⟩, x.2.type))
      (ps.zip rs) members := by
  induction ps generalizing rs members with
  | nil =>
    obtain rfl : [] = members := by simpa [paramMembers] using h
    exact .nil
  | cons p ps ih =>
    cases rs with
    | nil => simp at hlength
    | cons r rs =>
      rw [paramMembers] at h
      obtain ⟨key, hkey, h⟩ := Except.bind_eq_ok.1 h
      obtain ⟨rest, hrest, h⟩ := Except.bind_eq_ok.1 h
      obtain rfl : _ :: rest = members := by simpa [pure, Except.pure] using h
      exact .cons ⟨Form.text_of_ok hkey, rfl⟩ (ih (by simpa using hlength) hrest)

/-! ## The parameters of an operation -/

/-- The names of interfaces make names. -/
theorem pascal_freeName_ne_empty (claimed : List String) (name : String) :
    Name.pascal (freeName claimed (name ++ "Params")) ≠ "" := by
  refine Name.pascal_ne_empty ?_
  unfold freeName
  split
  all_goals simp

/-- One of the path parameters of an operation: the type of the last that was declared with its
name, in the document that declares it. -/
def IsPathParam (declared : List Parameter) (name : String) (param : Value × TypeExpr) : Prop :=
  ∃ p r, lastOf? declared name "path" = some p ∧
    (Resolve.value p.owner (Schema.ofValue (Value.orEmpty (p.members.field? "schema")))
      none).outcome = .ok r ∧ param = (.text name, r.type)

/-- One of the members of a params interface: what is said of it, and its type, are those of the
last parameter that was declared with its name, in the document that declares it. -/
def IsQueryMember (declared : List Parameter) (name slot : String)
    (member : MemberHead × TypeExpr) : Prop :=
  ∃ p r, lastOf? declared name "query" = some p ∧
    (Resolve.slot p.owner p.schema (some slot) false).outcome = .ok r ∧
    member = (⟨p.comment?, false, name, !Value.flag p.members "required"⟩, r.type)

/-- The params interface of an operation under a name. -/
structure HasInterface (ctx : Context) (declared : List Parameter) (op : Operation) (name : String)
    (members : List (MemberHead × TypeExpr)) : Prop where
  params : op.params = some (.name name)
  declaration : ∃ imports, ⟨name, .interface none name (.object members), imports⟩ ∈ op.declarations
  keys : members.map (·.1.key) = namesIn declared "query"
  slots : ∃ slots : List String, slots.Nodup ∧ "" ∉ slots ∧
    List.Forall₂ (fun x m => IsQueryMember declared x.1 x.2 m)
      ((namesIn declared "query").zip slots) members

variable {method : String} {path : Atom} {pathItem operation : Members} {op : Operation}

theorem pathParams_merged (s : Steps ctx method path pathItem operation op)
    {declared : List Parameter} (hplain : ∀ p ∈ declared, p.IsPlain)
    (hparameters : s.parameters = Keyed.lastOfEach Parameter.key declared) :
    List.Forall₂ (IsPathParam declared) (namesIn declared "path") op.pathParams := by
  have hok := pathParameters_ok s.pathParams_ok
  rw [hparameters] at hok
  rw [s.pathParams_eq, ← names_lastOfEach hplain, List.forall₂_map_left_iff,
    List.forall₂_map_right_iff]
  refine ((List.forall₂_and_left _ _).2 ⟨fun p hp => lastOf?_of_mem hplain hp, hok⟩).imp ?_
  rintro p r ⟨⟨hname, hlast⟩, hr, hvalue⟩
  exact ⟨p, r.2, hlast, hvalue, by rw [hr, hname]⟩

/-- Members side by side with the parameters and the slots that they are made of. -/
theorem forall₂_zip_zip {α β γ δ : Type} {R : α × β → γ → Prop} {S : α × γ → δ → Prop}
    {as : List α} {bs : List β} {cs : List γ} {ds : List δ} (hlength : bs.length = as.length)
    (hcs : List.Forall₂ R (as.zip bs) cs) (hds : List.Forall₂ S (as.zip cs) ds) :
    List.Forall₂ (fun x d => ∃ c, R x c ∧ S (x.1, c) d) (as.zip bs) ds := by
  induction as generalizing bs cs ds with
  | nil =>
    cases hds
    exact .nil
  | cons a as ih =>
    cases bs with
    | nil => cases hlength
    | cons b bs =>
      cases hcs with
      | cons hc hcs =>
        cases hds with
        | cons hd hds => exact .cons ⟨_, hc, hd⟩ (ih (Nat.succ.inj hlength) hcs hds)

/-- The members of the interface of plain parameters, each the last that was declared. -/
theorem isQueryMember_of_zip {declared query : List Parameter} {slots : List String}
    {types : List Resolved} {members : List (MemberHead × TypeExpr)}
    (hquery : ∀ p ∈ query, p.name = .text p.nameText ∧
      lastOf? declared p.nameText "query" = some p)
    (hslots : slots.length = query.length)
    (htypes : List.Forall₂ (fun x t =>
      (Resolve.slot x.1.owner x.1.schema x.2 false).outcome = .ok t) (query.zip (slots.map some))
        types)
    (hmembers : paramMembers query types = .ok members) :
    List.Forall₂ (fun x m => IsQueryMember declared x.1 x.2 m)
      ((query.map Parameter.nameText).zip slots) members := by
  have hlength : types.length = query.length := by
    rw [← htypes.length_eq, List.length_zip, List.length_map, hslots, Nat.min_self]
  have hall := forall₂_zip_zip (by rw [List.length_map, hslots]) htypes
    (paramMembers_ok hlength hmembers)
  rw [List.zip_map_right, List.forall₂_map_left_iff] at hall
  rw [List.zip_map_left, List.forall₂_map_left_iff]
  have hmem : ∀ x ∈ query.zip slots, x.1.name = .text x.1.nameText ∧
      lastOf? declared x.1.nameText "query" = some x.1 :=
    fun x hx => hquery x.1 (List.of_mem_zip hx).1
  refine ((List.forall₂_and_left _ _).2 ⟨hmem, hall⟩).imp ?_
  rintro ⟨p, slot⟩ m ⟨⟨hname, hlast⟩, r, hr, hkey, hm⟩
  have hkey : m.1.key = p.nameText :=
    (Atom.text.inj (Value.atom.inj (hname.symm.trans hkey))).symm
  exact ⟨p, r, hlast, hr, by rw [hm, hkey]; rfl⟩

theorem keys_of_members {declared : List Parameter} {names slots : List String}
    {members : List (MemberHead × TypeExpr)} (hlength : slots.length = names.length)
    (h : List.Forall₂ (fun x m => IsQueryMember declared x.1 x.2 m) (names.zip slots) members) :
    members.map (·.1.key) = names := by
  have hkeys : List.Forall₂ (fun x m => x.1 = m.1.key) (names.zip slots) members := by
    refine h.imp ?_
    rintro x m ⟨p, r, -, -, rfl⟩
    rfl
  have hfst : (names.zip slots).map Prod.fst = names := List.map_fst_zip (Nat.le_of_eq hlength.symm)
  rw [← hfst, ← List.forall₂_eq_eq_eq, List.forall₂_map_left_iff, List.forall₂_map_right_iff]
  exact hkeys.flip.imp fun _ _ h => h.symm

theorem exists_interface (s : Steps ctx method path pathItem operation op)
    (hdeclarations : op.declarations = Resolve.declarationsOf s.all)
    {declared : List Parameter} (hplain : ∀ p ∈ declared, p.IsPlain)
    (hparameters : s.parameters = Keyed.lastOfEach Parameter.key declared)
    (hquery : namesIn declared "query" ≠ []) : ∃ members,
      HasInterface ctx declared op (freeName s.claimed (op.typeName ++ "Params")) members := by
  have hnames := names_lastOfEach hplain "query"
  have hparams := paramsOf_ok.1 s.params_ok
  rw [hparameters] at hparams
  split at hparams
  · rename_i hempty
    rw [List.isEmpty_iff.1 hempty] at hnames
    exact absurd hnames.symm hquery
  · obtain ⟨r, hr, hsome⟩ := hparams
    have hmem : r ∈ s.all := by simp [Steps.all, hsome]
    obtain ⟨names, types, members, hslots, htypes, hmembers, rfl⟩ := paramsInterface_ok hr
    have hpascal := pascal_freeName_ne_empty s.claimed (Name.pascal op.name)
    obtain ⟨slots, rfl, hnodup, hne⟩ := Resolve.exists_childNames hpascal
      (fun hempty => hpascal (by rw [hempty]; rfl)) hslots
    have hlength : slots.length = (namesIn declared "query").length := by
      rw [← hnames, List.length_map]
      simpa using Resolve.childNames_length hslots
    have hall := isQueryMember_of_zip (fun p hp => lastOf?_of_mem hplain hp)
      (by rw [hlength, ← hnames, List.length_map]) htypes hmembers
    rw [hnames] at hall
    refine ⟨members, ?_, ?_, keys_of_members hlength hall, slots, hnodup, hne, hall⟩
    · rw [s.params_eq, hsome]
      rfl
    · refine ⟨Resolve.importsOf types, ?_⟩
      rw [hdeclarations]
      exact List.mem_flatMap.2 ⟨_, hmem, List.mem_append_right _ (List.mem_singleton_self _)⟩

end Operation

/-- Parameters that are declared more than once. What is declared are the parameters with a name
that stand in the rows of the path item and then of the operation, or at the ends of the chains of
references there, each read in its own document. If their names and places are texts, the path
parameters of the operation, and the members of its params interface, are one for each name that is
declared for the path or for the query, in the order in which the names come first; each is made of
the last parameter that was declared with the name and the place. The names of the members differ,
also as they are written, and so do the names of the slots that they are resolved in. -/
theorem merged_parameters {ctx : Context} {method : String} {path : Atom} {pathItem : Members}
    {operation : Value} {op : Operation}
    (h : (Operation.make ctx method path pathItem operation).outcome = .ok op) :
    ∃ ms shared own declared, operation = .map ms ∧
      Form.optionalRow (pathItem.field? "parameters") = .ok shared ∧
      Form.optionalRow (Members.field? ms "parameters") = .ok own ∧
      Operation.named ctx (shared ++ own) = .ok declared ∧
      (∀ p ∈ declared, p.DeclaredIn ctx (shared ++ own)) ∧
      ((∀ p ∈ declared, p.IsPlain) →
        List.Forall₂ (Operation.IsPathParam declared) (Operation.namesIn declared "path")
          op.pathParams ∧
        (Operation.namesIn declared "query" = [] → op.params = none) ∧
        (Operation.namesIn declared "query" ≠ [] → ∃ claimed members,
          Components.names ctx = .ok claimed ∧
          Operation.HasInterface ctx declared op
            (Operation.freeName claimed (op.typeName ++ "Params")) members ∧
          (members.map fun m => Name.member m.1.key).Nodup)) := by
  obtain ⟨ms, rfl, s, -, hdeclarations⟩ := Operation.make_ok h
  obtain ⟨shared, own, declared, hshared, hown, hdeclared, hall⟩ :=
    Operation.parameters_named s.parameters_ok
  refine ⟨ms, shared, own, declared, rfl, hshared, hown, hdeclared,
    Operation.declaredIn_of_named hdeclared, fun hplain => ?_⟩
  have hparameters := hall hplain
  refine ⟨Operation.pathParams_merged s hplain hparameters, fun hnone => ?_, fun hsome => ?_⟩
  · have hnames := Operation.names_lastOfEach hplain "query"
    rw [hnone, List.map_eq_nil_iff] at hnames
    have hparams := s.params_ok
    rw [hparameters, hnames, Operation.paramsOf_ok, if_pos List.isEmpty_nil] at hparams
    rw [s.params_eq, hparams]
    rfl
  · obtain ⟨members, hinterface⟩ :=
      Operation.exists_interface s hdeclarations hplain hparameters hsome
    refine ⟨s.claimed, members, s.claimed_ok, hinterface, ?_⟩
    have hkeys : (members.map fun m => Name.member m.1.key) =
        (Operation.namesIn declared "query").map Name.member := by
      rw [← hinterface.keys, List.map_map]
      rfl
    rw [hkeys]
    exact (nodup_eraseDups _).map Name.member_inj

/-- A path item and an operation that declare `sort` both, with a reference to another document. -/
def storeGet : Members :=
  let sort : Value := .map [(.text "name", .text "sort"), (.text "in", .text "query"),
    (.text "required", .bool true)]
  [(.text "parameters", .list [.map [(.text "$ref", .text "b.json#/Page")], sort,
    .map [(.text "in", .text "query")]])]

def storePathItem : Members :=
  let id : Value := .map [(.text "name", .text "storeId"), (.text "in", .text "path")]
  let sort : Value := .map [(.text "name", .text "sort")]
  [(.text "parameters", .list [id, sort]), (.text "get", .map storeGet)]

def storeContext : Context :=
  let page : Value := .map [(.text "name", .text "page")]
  .start [("/a.json", .map []), ("/b.json", .map [(.text "Page", page)])] "/a.json" (.map [])

theorem merged_parameters_store :
    ∃ op members imports,
      (Operation.make storeContext "get" (.text "/stores") storePathItem (.map storeGet)).outcome =
        .ok op ∧
      op.pathParams.map Prod.fst = [.text "storeId"] ∧
      op.params = some (.name "GetStoresParams") ∧
      ⟨"GetStoresParams", .interface none "GetStoresParams" (.object members), imports⟩ ∈
        op.declarations ∧
      members.map (·.1.key) = ["sort", "page"] := by
  obtain ⟨op, hop, hname⟩ := Except.exists_of_any
    (x := (Operation.make storeContext "get" (.text "/stores") storePathItem
      (.map storeGet)).outcome)
    (p := fun op => decide (op.typeName = "GetStores")) (by decide +kernel)
  obtain ⟨ms, shared, own, declared, hms, hshared, hown, hdeclared, -, hmerged⟩ :=
    merged_parameters hop
  obtain rfl : storeGet = ms := Value.map.inj hms
  have htest : (do
      let shared ← Form.optionalRow (storePathItem.field? "parameters")
      let own ← Form.optionalRow (Members.field? storeGet "parameters")
      let declared ← Operation.named storeContext (shared ++ own)
      return (decide (∀ p ∈ declared, p.IsPlain), Operation.namesIn declared "path",
        Operation.namesIn declared "query")) = .ok (true, ["storeId"], ["sort", "page"]) := by
    decide +kernel
  rw [hshared, hown] at htest
  dsimp only [bind, Except.bind] at htest
  rw [hdeclared] at htest
  obtain ⟨hplain, hpath, hquery⟩ := by simpa [pure, Except.pure] using htest
  obtain ⟨hpathParams, -, hparams⟩ := hmerged hplain
  rw [hpath] at hpathParams
  rw [hquery] at hparams
  obtain ⟨claimed, members, hclaimed, hinterface, -⟩ := hparams (by simp)
  obtain rfl : [] = claimed := Except.ok.inj hclaimed
  have hinterfaceName : Operation.freeName [] (op.typeName ++ "Params") = "GetStoresParams" := by
    rw [of_decide_eq_true hname]
    decide
  obtain ⟨hparam, ⟨imports, hdeclaration⟩, hkeys, -⟩ := hinterface
  rw [hinterfaceName] at hparam hdeclaration
  refine ⟨op, members, imports, hop, ?_, hparam, hdeclaration, hkeys.trans hquery⟩
  obtain ⟨param, rest, ⟨p, r, -, -, rfl⟩, hrest, hpathParams⟩ :=
    List.forall₂_cons_left_iff.1 hpathParams
  rw [hpathParams, List.forall₂_nil_left_iff.1 hrest]
  rfl

end ApiTypes

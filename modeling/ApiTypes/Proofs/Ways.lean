import ApiTypes.Proofs.Parts
import ApiTypes.Proofs.ReorderedSchemas

/-!
# Ways into values

* `Way` : a way into a value, one key of a member or place in a list after another;
* `Value.at?`, `Value.setAt` : what stands at the end of a way, and the value with something else
  there;
* `Way.Names` : the tokens of a pointer that takes a way;
* `Value.field?_setAt` : setting what stands at the end of a way changes one member of a mapping on
  it;
* `Pointer.walk_setAt` : and changes what a pointer leads to only where the way passes, unless the
  pointer leads to its end or further.
-/

namespace ApiTypes

/-- One step of a way: to the member of a key, or to a place in a list. -/
inductive Way.Step where
  | key (key : Atom)
  | item (index : Nat)
  deriving DecidableEq, Repr

abbrev Way := List Way.Step

namespace Way

/-- The token of a pointer that takes a step. -/
def Step.IsNamed : Step → String → Prop
  | .key k, token => k = .text token
  | .item n, token => Text.natOfDecimals? token.toList = some n

/-- The tokens of a pointer that takes a way. -/
def Names (way : Way) (tokens : List String) : Prop := List.Forall₂ Step.IsNamed way tokens

/-- A pointer leads to the end of a way, or further. -/
def Reached (way : Way) (tokens : List String) : Prop :=
  ∃ front rest, tokens = front ++ rest ∧ way.Names front

theorem Names.of_keys {way : Way} {keys tokens : List String}
    (hway : way = keys.map fun key => .key (.text key)) (h : way.Names tokens) : tokens = keys := by
  subst hway
  induction keys generalizing tokens with
  | nil =>
    cases h
    rfl
  | cons key rest ih =>
    cases h with
    | cons hkey hrest =>
      have htoken : Atom.text key = Atom.text _ := hkey
      rw [ih hrest, Atom.text.inj htoken]

theorem names_keys (keys : List String) : Names (keys.map fun key => .key (.text key)) keys := by
  induction keys with
  | nil => exact .nil
  | cons key rest ih => exact .cons rfl ih

/-- A pointer to the end of a way takes its first key. -/
theorem Reached.exists_cons {key : String} {rest : Way} {tokens : List String}
    (h : Reached (.key (.text key) :: rest) tokens) : ∃ more, tokens = key :: more := by
  obtain ⟨front, more, rfl, hfront⟩ := h
  cases hfront with
  | cons hkey _ =>
    have htoken : Atom.text key = Atom.text _ := hkey
    exact ⟨_, by rw [Atom.text.inj htoken, List.cons_append]⟩

end Way

namespace Value

/-- What stands at the end of a way. -/
def at? : Value → Way → Option Value
  | v, [] => some v
  | v, .key key :: rest => (v.members?.bind fun ms => Members.get? ms key).bind fun u => at? u rest
  | v, .item index :: rest => (v.items?.bind fun items => items[index]?).bind fun u => at? u rest

/-- The value with something else at the end of a way. Mappings on it that are left out are made. -/
def setAt : Value → Way → Value → Value
  | _, [], w => w
  | v, .key key :: rest, w =>
    match orEmpty (some v) with
    | .map ms => .map (Members.put ms key (setAt ((Members.get? ms key).getD .null) rest w))
    | _ => v
  | v, .item index :: rest, w =>
    match v with
    | .list items => .list (items.modify index fun u => setAt u rest w)
    | _ => v

end Value

/-! ## Keys -/

theorem Atom.text_same (s : String) (a : Atom) : (Atom.text s).same a = decide (a = .text s) := by
  cases a with
  | text t =>
    rw [same, Bool.eq_iff_iff, beq_iff_eq, decide_eq_true_iff, Atom.text.injEq, eq_comm]
  | _ => simp [same, compareNumbers?, int?]

namespace Members

theorem field?_put (ms : Members) (key : Atom) (v : Value) (name : String) :
    (ms.put key v).field? name = if key = .text name then some v else ms.field? name := by
  induction ms with
  | nil =>
    change field? [(key, v)] name = _
    rw [field?_cons]
    split_ifs with hsame hkey hkey
    · rfl
    · exact absurd (Atom.eq_text_of_same hsame) hkey
    · exact absurd (by rw [hkey, Atom.text_same, decide_eq_true rfl]) hsame
    · rfl
  | cons m rest ih =>
    obtain ⟨k, u⟩ := m
    by_cases hk : k.same key = true
    · have hput : Members.put ((k, u) :: rest) key v = (k, v) :: rest := if_pos hk
      rw [hput, field?_cons, field?_cons]
      dsimp only
      by_cases hname : k.same (.text name) = true
      · obtain rfl := Atom.eq_text_of_same hname
        rw [if_pos hname, if_pos (by simpa [Atom.text_same] using hk)]
      · rw [if_neg hname, if_neg hname, if_neg fun hkey => hname (by rwa [← hkey])]
    · have hput : Members.put ((k, u) :: rest) key v = (k, u) :: Members.put rest key v := if_neg hk
      rw [hput, field?_cons, field?_cons, ih]
      dsimp only
      by_cases hname : k.same (.text name) = true
      · obtain rfl := Atom.eq_text_of_same hname
        rw [if_pos hname, if_pos hname, if_neg fun hkey => hk (by rwa [hkey])]
      · rw [if_neg hname, if_neg hname]

theorem field?_put_self (ms : Members) (name : String) (v : Value) :
    (ms.put (.text name) v).field? name = some v := by
  rw [field?_put, if_pos rfl]

theorem field?_put_of_ne {key : Atom} {name : String} (h : key ≠ .text name) (ms : Members)
    (v : Value) : (ms.put key v).field? name = ms.field? name := by
  rw [field?_put, if_neg h]

/-- A key that is there keeps its place. -/
theorem get?_put {ms : Members} {key : Atom} {u : Value} (h : ms.get? key = some u) (v : Value) :
    (ms.put key v).get? key = some v := by
  induction ms with
  | nil => cases h
  | cons m rest ih =>
    obtain ⟨k, w⟩ := m
    by_cases hk : k.same key = true
    · have hput : Members.put ((k, w) :: rest) key v = (k, v) :: rest := if_pos hk
      rw [hput, get?, List.find?_cons_of_pos (by exact hk)]
      rfl
    · have hput : Members.put ((k, w) :: rest) key v = (k, w) :: Members.put rest key v := if_neg hk
      rw [get?, List.find?_cons_of_neg (by exact hk)] at h
      rw [hput, get?, List.find?_cons_of_neg (by exact hk)]
      exact ih h

end Members

/-! ## What stands at the end of a way -/

namespace Value

theorem at?_key {v u : Value} {key : Atom} {rest : Way} (h : v.at? (.key key :: rest) = some u) :
    ∃ ms w, v = .map ms ∧ Members.get? ms key = some w ∧ w.at? rest = some u := by
  rw [at?] at h
  obtain ⟨w, hw, hrest⟩ := Option.bind_eq_some_iff.1 h
  obtain ⟨ms, hms, hw⟩ := Option.bind_eq_some_iff.1 hw
  cases v with
  | map members =>
    obtain rfl := Option.some.inj hms
    exact ⟨members, w, rfl, hw, hrest⟩
  | list items => cases hms
  | atom a => cases hms

theorem at?_item {v u : Value} {index : Nat} {rest : Way}
    (h : v.at? (.item index :: rest) = some u) :
    ∃ items w, v = .list items ∧ items[index]? = some w ∧ w.at? rest = some u := by
  rw [at?] at h
  obtain ⟨w, hw, hrest⟩ := Option.bind_eq_some_iff.1 h
  obtain ⟨items, hitems, hw⟩ := Option.bind_eq_some_iff.1 hw
  cases v with
  | list members =>
    obtain rfl := Option.some.inj hitems
    exact ⟨members, w, rfl, hw, hrest⟩
  | map ms => cases hitems
  | atom a => cases hitems

theorem setAt_map (ms : Members) (key : Atom) (rest : Way) (w : Value) :
    (map ms).setAt (.key key :: rest) w =
      map (Members.put ms key (((Members.get? ms key).getD .null).setAt rest w)) := by
  rw [setAt, orEmpty_map]

theorem orEmpty_getD (v : Option Value) : orEmpty (some (v.getD .null)) = orEmpty v := by
  cases v with
  | some w => rfl
  | none => rfl

/-- A mapping that is left out is made. -/
theorem setAt_optional {v : Option Value} {ms : Members} (h : Form.optionalMapping v = .ok ms)
    (key : Atom) (rest : Way) (w : Value) : (v.getD .null).setAt (.key key :: rest) w =
      map (Members.put ms key (((Members.get? ms key).getD .null).setAt rest w)) := by
  rw [Form.optionalMapping, Form.mapping_ok] at h
  rw [setAt, orEmpty_getD, h]

theorem at?_append {v u : Value} (front : Way) {rest : Way} (h : v.at? (front ++ rest) = some u) :
    ∃ w, v.at? front = some w ∧ w.at? rest = some u := by
  induction front generalizing v with
  | nil => exact ⟨v, rfl, h⟩
  | cons step front ih =>
    cases step with
    | key key =>
      obtain ⟨ms, w, rfl, hw, h⟩ := at?_key h
      obtain ⟨x, hx, hrest⟩ := ih h
      exact ⟨x, by rw [at?]; exact (congrArg (Option.bind · _) hw).trans hx, hrest⟩
    | item index =>
      obtain ⟨items, w, rfl, hw, h⟩ := at?_item h
      obtain ⟨x, hx, hrest⟩ := ih h
      exact ⟨x, by rw [at?]; exact (congrArg (Option.bind · _) hw).trans hx, hrest⟩

/-- A value that stands on a way refers to nothing but what the whole refers to. -/
theorem refs_of_at? {v u : Value} {way : Way} (h : v.at? way = some u) : u.refs ⊆ v.refs := by
  induction way generalizing v with
  | nil =>
    obtain rfl := Option.some.inj h
    exact List.Subset.refl _
  | cons step rest ih =>
    cases step with
    | key key =>
      obtain ⟨ms, w, rfl, hw, h⟩ := at?_key h
      obtain ⟨m, hm, rfl⟩ := Option.map_eq_some_iff.1 hw
      exact List.Subset.trans (ih h) (List.Subset.trans
        (refs_of_member (List.mem_of_find?_eq_some hm)) (refsOfMembers_subset ms))
    | item index =>
      obtain ⟨items, w, rfl, hw, h⟩ := at?_item h
      exact List.Subset.trans (ih h) (refs_of_item (List.mem_of_getElem? hw))

/-- What stands at the beginning of a way is set from there on. -/
theorem at?_setAt {v u : Value} {front : Way} (h : v.at? front = some u) (rest : Way) (w : Value) :
    (v.setAt (front ++ rest) w).at? front = some (u.setAt rest w) := by
  induction front generalizing v with
  | nil =>
    obtain rfl := Option.some.inj h
    rfl
  | cons step front ih =>
    cases step with
    | key key =>
      obtain ⟨ms, x, rfl, hx, h⟩ := at?_key h
      rw [List.cons_append, setAt_map, at?, hx]
      change Option.bind (Members.get? (Members.put ms key _) key) _ = _
      rw [Members.get?_put hx]
      exact ih h
    | item index =>
      obtain ⟨items, x, rfl, hx, h⟩ := at?_item h
      rw [List.cons_append, setAt, at?]
      change Option.bind ((items.modify index _)[index]?) _ = _
      rw [List.getElem?_modify_eq, hx]
      exact ih h

/-! ## The members of a mapping on a way -/

/-- What is set on a way is set in a mapping or in what stands for none, or it is not set. -/
theorem setAt_key_cases (v : Value) (key : Atom) (rest : Way) (w : Value) :
    (∃ ms, (∀ name, v.field? name = Members.field? ms name) ∧ v.setAt (.key key :: rest) w =
      .map (Members.put ms key (((Members.get? ms key).getD .null).setAt rest w))) ∨
    v.setAt (.key key :: rest) w = v := by
  rw [setAt]
  split
  · rename_i ms hms
    refine .inl ⟨ms, fun name => ?_, rfl⟩
    cases v with
    | map members =>
      rw [orEmpty_map] at hms
      obtain rfl := Value.map.inj hms
      rfl
    | list items =>
      simp only [orEmpty] at hms
      split_ifs at hms
      obtain rfl := Value.map.inj hms
      rfl
    | atom a =>
      simp only [orEmpty] at hms
      split_ifs at hms
      obtain rfl := Value.map.inj hms
      rfl
  · exact .inr rfl

theorem field?_setAt {v w : Value} {key : Atom} {rest : Way} {name : String}
    (h : key ≠ .text name) : (v.setAt (.key key :: rest) w).field? name = v.field? name := by
  rcases setAt_key_cases v key rest w with ⟨ms, hms, hset⟩ | hset
  · rw [hset, hms]
    exact Members.field?_put_of_ne h ms _
  · rw [hset]

/-- A place in a list is no member of a mapping. -/
theorem field?_setAt_item (v w : Value) (index : Nat) (rest : Way) (name : String) :
    (v.setAt (.item index :: rest) w).field? name = v.field? name := by
  cases v <;> rfl

end Value

/-! ## Pointers -/

namespace Pointer

/-- A token that leads into a list is the numeral of a place in it. -/
theorem step_list {items : List Value} {u : Value} {token : String}
    (h : step (.list items) token = .ok u) :
    ∃ n, Text.natOfDecimals? token.toList = some n ∧ items[n]? = some u ∧
      ∀ (others : List Value) (x : Value), others[n]? = some x →
        step (.list others) token = .ok x := by
  rw [step] at h
  split at h
  · rename_i hdigits
    split at h
    · rename_i n hn
      split at h
      · cases h
      · rename_i hlength
        split at h
        · rename_i hitem
          obtain rfl := Except.ok.inj h
          refine ⟨n, hn, hitem, fun others x hx => ?_⟩
          rw [step, if_pos hdigits, hn]
          dsimp only
          rw [if_neg hlength, hx]
        · cases h
    · cases h
  · cases h

/-- A step to where a way goes on leads to what is set there; any other step is as before. -/
theorem step_setAt {v u w : Value} {token : String} (h : step v token = .ok u) (first : Way.Step)
    (rest : Way) :
    (first.IsNamed token ∧ step (v.setAt (first :: rest) w) token = .ok (u.setAt rest w)) ∨
      step (v.setAt (first :: rest) w) token = .ok u := by
  cases v with
  | map ms =>
    cases first with
    | key key =>
      have hfield := step_map h
      rw [Value.setAt_map, step]
      by_cases hkey : key = .text token
      · subst hkey
        refine .inl ⟨rfl, ?_⟩
        have hget : Members.get? ms (.text token) = some u := hfield
        rw [Members.field?_put_self, hget]
        rfl
      · refine .inr ?_
        rw [Members.field?_put_of_ne hkey, hfield]
    | item index => exact .inr h
  | list items =>
    obtain ⟨n, hn, hitem, hstep⟩ := step_list h
    cases first with
    | key key =>
      refine .inr ?_
      cases items with
      | nil => cases hitem
      | cons item items => exact h
    | item index =>
      by_cases hindex : index = n
      · subst hindex
        exact .inl ⟨hn, hstep _ _ (by rw [List.getElem?_modify_eq, hitem]; rfl)⟩
      · refine .inr (hstep _ _ ?_)
        rw [List.getElem?_modify_ne _ _ hindex, hitem]
  | atom a => cases h

theorem walk_concat {v u w : Value} {token : String} {tokens : List String}
    (h : walk v tokens = .ok u) (hstep : step u token = .ok w) :
    walk v (tokens ++ [token]) = .ok w := by
  induction tokens generalizing v with
  | nil =>
    obtain rfl : v = u := by simpa [walk] using h
    rw [List.nil_append, walk, hstep]
    rfl
  | cons first rest ih =>
    obtain ⟨x, hx, h⟩ := walk_cons h
    rw [List.cons_append, walk, hx]
    exact ih h

/-- A pointer that takes a way leads to its end. -/
theorem eq_of_names {v u x : Value} {way : Way} {tokens : List String} (h : walk v tokens = .ok u)
    (hway : way.Names tokens) (hx : v.at? way = some x) : u = x := by
  induction way generalizing v tokens with
  | nil =>
    cases hway
    obtain rfl : v = u := by simpa [walk] using h
    exact Option.some.inj hx
  | cons first rest ih =>
    cases hway with
    | cons hfirst hrest =>
      obtain ⟨y, hy, hlater⟩ := walk_cons h
      cases first with
      | key key =>
        obtain ⟨ms, z, rfl, hz, hx⟩ := Value.at?_key hx
        obtain rfl : key = .text _ := hfirst
        obtain rfl : y = z := Option.some.inj ((step_map hy).symm.trans hz)
        exact ih hlater hrest hx
      | item index =>
        obtain ⟨items, z, rfl, hz, hx⟩ := Value.at?_item hx
        obtain ⟨n, hn, hitem, -⟩ := step_list hy
        obtain rfl : n = index := Option.some.inj (hn.symm.trans hfirst)
        obtain rfl : y = z := Option.some.inj (hitem.symm.trans hz)
        exact ih hlater hrest hx

/-- What a pointer leads to is set from there on if it stands on the way, and is as before if it
stands elsewhere. -/
theorem walk_setAt {v u w : Value} {way : Way} {tokens : List String}
    (h : walk v tokens = .ok u) (hreached : ¬ way.Reached tokens) :
    ∃ x, walk (v.setAt way w) tokens = .ok x ∧ (x = u ∨ ∃ front first rest,
      way = front ++ first :: rest ∧ Way.Names front tokens ∧ x = u.setAt (first :: rest) w) := by
  induction tokens generalizing v way with
  | nil =>
    obtain rfl : v = u := by simpa [walk] using h
    cases way with
    | nil => exact absurd ⟨[], [], rfl, .nil⟩ hreached
    | cons first rest => exact ⟨_, rfl, .inr ⟨[], first, rest, rfl, .nil, rfl⟩⟩
  | cons token tokens ih =>
    obtain ⟨x, hx, h⟩ := walk_cons h
    cases way with
    | nil => exact absurd ⟨[], token :: tokens, rfl, .nil⟩ hreached
    | cons first rest =>
      rcases step_setAt (w := w) hx first rest with ⟨hnamed, hstep⟩ | hstep
      · have hrest : ¬ Way.Reached rest tokens := by
          rintro ⟨front, back, rfl, hfront⟩
          exact hreached ⟨token :: front, back, rfl, .cons hnamed hfront⟩
        obtain ⟨y, hy, hcases⟩ := ih h hrest
        refine ⟨y, ?_, ?_⟩
        · rw [walk, hstep]
          exact hy
        · rcases hcases with heq | ⟨front, next, back, rfl, hfront, heq⟩
          · exact .inl heq
          · exact .inr ⟨first :: front, next, back, rfl, .cons hnamed hfront, heq⟩
      · refine ⟨u, ?_, .inl rfl⟩
        rw [walk, hstep]
        exact h

end Pointer
end ApiTypes

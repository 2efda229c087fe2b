import ApiTypes.Proofs.Agreement
import ApiTypes.Proofs.Entries
import Mathlib.Data.List.Perm.Basic

/-!
# Documents with their members in another order

* `Role` : what the order of members at a place of a document counts for;
* `Value.Reordered` : the same value with members in another order where the order counts for
  nothing: not among the properties of a schema, and not inside what is shown as text;
* `Members.Alike` : mappings whose values are so related;
* `Members.Alike.field?` : they hold related values under each key, so their readings are the same;
* `Pointer.walk_reordered` : a pointer leads to related values;
* `Value.length_refs` : reordered values are made of as many references.
-/

namespace ApiTypes

/-! ## Values that may be there -/

section
variable {α β : Type} {R : α → α → Prop} {a b : Option α} (h : Option.Rel R a b)
include h

theorem rel_imp {S : α → α → Prop} (hRS : ∀ v w, R v w → S v w) : Option.Rel S a b := by
  cases h with
  | none => exact .none
  | some h => exact .some (hRS _ _ h)

theorem rel_bind {f : α → Option β} (hf : ∀ v w, R v w → f v = f w) : a.bind f = b.bind f := by
  cases h with
  | none => rfl
  | some h => exact hf _ _ h

theorem rel_any {p : α → Bool} (hp : ∀ v w, R v w → p v = p w) : a.any p = b.any p := by
  cases h with
  | none => rfl
  | some h => exact hp _ _ h

theorem rel_isSome : a.isSome = b.isSome := by
  cases h <;> rfl

theorem rel_eq (hR : ∀ v w, R v w → v = w) : a = b := by
  cases h with
  | none => rfl
  | some h => rw [hR _ _ h]

end

/-! ## Places in a document -/

/-- What the order of the members of a value counts for, by its place in a document. -/
inductive Role where
  /-- The whole document. -/
  | document
  /-- The paths of a document; each member is a path item, whatever its key. -/
  | paths
  /-- Members that are found by their keys. -/
  | free
  /-- The properties of a schema, listed in their order. -/
  | properties
  /-- Where a list is one of values, which are shown. -/
  | enum
  /-- A value that is shown as text. -/
  | shown
  deriving DecidableEq, Repr

namespace Role

/-- The role of the value under a key. -/
def under (role : Role) (key : Atom) : Role :=
  if key = .text "description" ∨ key = .text "summary" then shown
  else if key = .text "enum" then enum
  else if role = paths then free
  else if role = document ∧ key = .text "paths" then paths
  else if key = .text "properties" then properties
  else free

theorem under_description (role : Role) : role.under (.text "description") = shown := by
  simp [under]

theorem under_summary (role : Role) : role.under (.text "summary") = shown := by
  simp [under]

theorem under_enum (role : Role) : role.under (.text "enum") = enum := by
  simp [under]

theorem under_paths : document.under (.text "paths") = paths := by
  simp [under]

theorem under_properties {role : Role} (h : role ≠ paths) :
    role.under (.text "properties") = properties := by
  simp [under, h]

theorem under_ne_document (role : Role) (key : Atom) : role.under key ≠ document := by
  unfold under
  split_ifs <;> simp

/-- Only the paths of a document are paths. -/
theorem under_ne_paths {role : Role} {key : Atom} (h : role ≠ document ∨ key ≠ .text "paths") :
    role.under key ≠ paths := by
  unfold under
  split_ifs with _ _ _ hpaths
  · simp
  · simp
  · simp
  · exact absurd hpaths (by tauto)
  · simp
  · simp

end Role

mutual

/-- Two values are the same but for the order of members where it counts for nothing. The keys of
reordered members are texts, each there once. -/
inductive Value.Reordered : Role → Value → Value → Prop
  | same (role : Role) (v : Value) : Reordered role v v
  | list {role : Role} {items items' : List Value} (hshown : role ≠ .shown) (henum : role ≠ .enum)
      (hitems : Value.ItemsReordered items items') :
    Reordered role (.list items) (.list items')
  | map {role : Role} {ms ms₁ ms' : Members} (hshown : role ≠ .shown)
      (hmembers : Value.MembersReordered role ms ms₁)
      (htext : ∀ key ∈ ms.map Prod.fst, key.text?.isSome = true)
      (hnodup : (ms.map Prod.fst).Nodup) (hperm : ms₁.Perm ms')
      (hordered : role = .properties → ms₁ = ms') :
    Reordered role (.map ms) (.map ms')

inductive Value.ItemsReordered : List Value → List Value → Prop
  | nil : ItemsReordered [] []
  | cons {v w : Value} {items items' : List Value} (h : Value.Reordered .free v w)
      (hitems : ItemsReordered items items') : ItemsReordered (v :: items) (w :: items')

/-- The members keep their order here, the members of their values may not. -/
inductive Value.MembersReordered : Role → Members → Members → Prop
  | nil (role : Role) : MembersReordered role [] []
  | cons {role : Role} {key : Atom} {v w : Value} {ms ms' : Members}
      (h : Value.Reordered (role.under key) v w) (hmembers : MembersReordered role ms ms') :
    MembersReordered role ((key, v) :: ms) ((key, w) :: ms')

end

/-- Members of one key whose values are related. -/
def SameMember (role : Role) (m m' : Atom × Value) : Prop :=
  m.1 = m'.1 ∧ Value.Reordered (role.under m.1) m.2 m'.2

/-- Two mappings are the same but for their order and the order inside their values. -/
def Members.Alike (role : Role) (ms ms' : Members) : Prop :=
  ms = ms' ∨ ∃ ms₁, List.Forall₂ (SameMember role) ms ms₁ ∧ ms₁.Perm ms' ∧
    (∀ key ∈ ms.map Prod.fst, key.text?.isSome = true) ∧ (ms.map Prod.fst).Nodup ∧
    (role = .properties → ms₁ = ms')

namespace Value

variable {role : Role} {v w : Value}

theorem ItemsReordered.forall₂ {items items' : List Value} (h : ItemsReordered items items') :
    List.Forall₂ (Reordered .free) items items' := by
  induction items generalizing items' with
  | nil =>
    cases h
    exact .nil
  | cons v rest ih =>
    cases h with
    | cons hv hrest => exact .cons hv (ih hrest)

theorem MembersReordered.forall₂ {ms ms' : Members} (h : MembersReordered role ms ms') :
    List.Forall₂ (SameMember role) ms ms' := by
  induction ms generalizing ms' with
  | nil =>
    cases h
    exact .nil
  | cons m rest ih =>
    cases h with
    | cons hv hrest => exact .cons ⟨rfl, hv⟩ (ih hrest)

/-- Two reordered values, told by their kind. -/
inductive Sides (role : Role) : Value → Value → Prop
  | atom (a : Atom) : Sides role (.atom a) (.atom a)
  | list {items items' : List Value} (hitems : List.Forall₂ (Reordered .free) items items')
      (henum : role = .enum → items = items') : Sides role (.list items) (.list items')
  | map {ms ms' : Members} (hms : Members.Alike role ms ms') : Sides role (.map ms) (.map ms')

namespace Reordered

theorem eq_of_shown (h : Reordered .shown v w) : v = w := by
  cases h with
  | same => rfl
  | list hshown => exact absurd rfl hshown
  | map hshown => exact absurd rfl hshown

/-- Reordered values are of one kind. -/
theorem sides (h : Reordered role v w) : Sides role v w := by
  cases h with
  | same =>
    cases v with
    | atom a => exact .atom a
    | list items => exact .list (List.forall₂_same.2 fun v _ => .same _ v) fun _ => rfl
    | map ms => exact .map (.inl rfl)
  | list _ henum hitems => exact .list hitems.forall₂ fun h => absurd h henum
  | map _ hmembers htext hnodup hperm hordered =>
    exact .map (.inr ⟨_, hmembers.forall₂, hperm, htext, hnodup, hordered⟩)

theorem text?_eq (h : Reordered role v w) : v.text? = w.text? := by
  cases h <;> rfl

end Reordered
end Value

/-! ## Members in another order -/

namespace Members

variable {role : Role} {ms ms' : Members}

theorem keys_of_forall₂ (h : List.Forall₂ (SameMember role) ms ms') :
    ms.map Prod.fst = ms'.map Prod.fst := by
  induction h with
  | nil => rfl
  | cons hm _ ih => rw [List.map_cons, List.map_cons, hm.1, ih]

theorem field?_cons (m : Atom × Value) (ms : Members) (key : String) :
    field? (m :: ms) key = if m.1.same (.text key) then some m.2 else field? ms key := by
  unfold field? get?
  rw [List.find?_cons]
  split
  · rename_i hsame
    rw [if_pos hsame]
    rfl
  · rename_i hsame
    rw [if_neg (by simp [hsame])]

theorem field?_of_mem (hnodup : (ms.map Prod.fst).Nodup) {key : String} {v : Value}
    (h : (.text key, v) ∈ ms) : ms.field? key = some v := by
  induction ms with
  | nil => cases h
  | cons m rest ih =>
    rw [List.map_cons, List.nodup_cons] at hnodup
    rw [field?_cons]
    rcases List.mem_cons.1 h with rfl | h
    · rw [if_pos (by simp [Atom.same])]
    · rw [if_neg, ih hnodup.2 h]
      intro hsame
      refine hnodup.1 ?_
      rw [Atom.eq_text_of_same hsame]
      exact List.mem_map_of_mem h

/-- What is found under a key does not depend on the order, where each key is there once. -/
theorem field?_perm (hnodup : (ms.map Prod.fst).Nodup) (h : ms.Perm ms') (key : String) :
    ms.field? key = ms'.field? key := by
  have hnodup' : (ms'.map Prod.fst).Nodup := (h.map Prod.fst).nodup_iff.1 hnodup
  refine Option.ext fun v => ?_
  exact ⟨fun hv => field?_of_mem hnodup' (h.mem_iff.1 (exists_of_field? hv)),
    fun hv => field?_of_mem hnodup (h.mem_iff.2 (exists_of_field? hv))⟩

theorem field?_forall₂ (h : List.Forall₂ (SameMember role) ms ms') (key : String) :
    Option.Rel (Value.Reordered (role.under (.text key))) (ms.field? key) (ms'.field? key) := by
  induction h with
  | nil => exact .none
  | @cons m m' _ _ hm _ ih =>
    obtain ⟨hkey, hvalue⟩ := hm
    rw [field?_cons, field?_cons, ← hkey]
    split_ifs with hsame
    · rw [Atom.eq_text_of_same hsame] at hvalue
      exact .some hvalue
    · exact ih

namespace Alike

theorem field? (h : Alike role ms ms') (key : String) :
    Option.Rel (Value.Reordered (role.under (.text key))) (ms.field? key) (ms'.field? key) := by
  rcases h with rfl | ⟨ms₁, hmembers, hperm, -, hnodup, -⟩
  · cases ms.field? key with
    | none => exact .none
    | some v => exact .some (.same _ v)
  · rw [← field?_perm (keys_of_forall₂ hmembers ▸ hnodup) hperm]
    exact field?_forall₂ hmembers key

theorem length_eq (h : Alike role ms ms') : ms.length = ms'.length := by
  rcases h with rfl | ⟨ms₁, hmembers, hperm, -⟩
  · rfl
  · exact hmembers.length_eq.trans hperm.length_eq

/-- In the order of properties, members stand side by side. -/
theorem forall₂ (h : Alike .properties ms ms') : List.Forall₂ (SameMember .properties) ms ms' := by
  rcases h with rfl | ⟨ms₁, hmembers, -, -, -, hordered⟩
  · exact List.forall₂_same.2 fun m _ => ⟨rfl, .same _ m.2⟩
  · exact hordered rfl ▸ hmembers

end Alike
end Members

theorem isEmpty_eq_of_length {α β : Type} {as : List α} {bs : List β} (h : as.length = bs.length) :
    as.isEmpty = bs.isEmpty := by
  cases as <;> cases bs <;> simp_all

theorem Value.Reordered.isTrue_eq {role : Role} {v w : Value} (h : Reordered role v w) :
    v.isTrue = w.isTrue := by
  cases h.sides with
  | atom a => rfl
  | list hitems _ => rw [isTrue, isTrue, isEmpty_eq_of_length hitems.length_eq]
  | map hms => rw [isTrue, isTrue, isEmpty_eq_of_length hms.length_eq]

/-! ## Readings of places -/

section
variable {role : Role} {v w : Value}

theorem Value.orEmpty_reordered {a b : Option Value} (h : Option.Rel (Reordered role) a b) :
    Reordered role (orEmpty a) (orEmpty b) := by
  unfold orEmpty
  cases h with
  | none => exact .same _ _
  | some h =>
    dsimp only
    rw [h.isTrue_eq]
    split_ifs
    · exact h
    · exact .same _ _

namespace Form

theorem mapping_reordered (h : Value.Reordered role v w) :
    Except.Agree (Members.Alike role) (mapping v) (mapping w) := by
  cases h.sides with
  | atom a => exact .error _
  | list => exact .error _
  | map hms => exact .ok hms

theorem optionalMapping_reordered {a b : Option Value} (h : Option.Rel (Value.Reordered role) a b) :
    Except.Agree (Members.Alike role) (optionalMapping a) (optionalMapping b) :=
  mapping_reordered (Value.orEmpty_reordered h)

theorem text_reordered (h : Value.Reordered role v w) : text v = text w := by
  cases h.sides <;> rfl

theorem key_reordered (h : Value.Reordered role v w) : key v = key w := by
  cases h.sides <;> rfl

theorem pascal_reordered (h : Value.Reordered role v w) : pascal v = pascal w := by
  unfold pascal
  rw [h.text?_eq, h.isTrue_eq]

end Form
end

/-! ## Pointers -/

theorem forall₂_getElem? {α β : Type} {R : α → β → Prop} {as : List α} {bs : List β}
    (h : List.Forall₂ R as bs) (n : Nat) : Option.Rel R as[n]? bs[n]? := by
  induction h generalizing n with
  | nil => exact .none
  | cons hab _ ih =>
    cases n with
    | zero => exact .some hab
    | succ n => exact ih n

theorem Pointer.step_reordered {role : Role} {v w : Value} (h : Value.Reordered role v w)
    (token : String) :
    Except.Agree (fun a b => ∃ role, Value.Reordered role a b) (step v token) (step w token) := by
  cases h.sides with
  | atom a => exact .error _
  | @map ms ms' hms =>
    have hfield := hms.field? token
    rw [step, step]
    generalize Members.field? ms token = a, Members.field? ms' token = b at hfield ⊢
    cases hfield with
    | none => exact .error _
    | some hvalue => exact .ok ⟨_, hvalue⟩
  | @list items items' hitems _ =>
    rw [step, step]
    split
    · split
      · rename_i n _
        split_ifs
        · exact .error _
        · have hitem := forall₂_getElem? hitems n
          generalize items[n]? = a, items'[n]? = b at hitem ⊢
          cases hitem with
          | none => exact .error _
          | some hvalue => exact .ok ⟨_, hvalue⟩
      · exact .error _
    · exact .error _

/-- A pointer leads to related values, or fails in both. -/
theorem Pointer.walk_reordered {role : Role} {v w : Value} (h : Value.Reordered role v w)
    (tokens : List String) :
    Except.Agree (fun a b => ∃ role, Value.Reordered role a b) (walk v tokens) (walk w tokens) := by
  induction tokens generalizing role v w with
  | nil => exact .ok ⟨role, h⟩
  | cons token rest ih =>
    rw [walk, walk]
    refine (step_reordered h token).bind fun a b hab => ?_
    obtain ⟨role, hab⟩ := hab
    exact ih hab

/-! ## References -/

section
variable {role : Role}

theorem Members.Alike.ownRef_eq {ms ms' : Members} (h : Members.Alike role ms ms') :
    Value.ownRef ms = Value.ownRef ms' :=
  congrArg Option.toList (rel_bind (h.field? "$ref") fun _ _ hvalue => hvalue.text?_eq)

theorem Value.refsOfMembers_perm {ms ms' : Members} (h : ms.Perm ms') :
    (refsOfMembers ms).Perm (refsOfMembers ms') := by
  induction h with
  | nil => exact .refl _
  | cons m _ ih =>
    rw [refsOfMembers, refsOfMembers]
    exact ih.append_left _
  | swap m n rest =>
    rw [refsOfMembers, refsOfMembers, refsOfMembers, refsOfMembers, ← List.append_assoc,
      ← List.append_assoc]
    exact List.perm_append_comm.append_right _
  | trans _ _ ih ih' => exact ih.trans ih'

mutual

/-- Reordered values are made of as many references. -/
theorem Value.length_refs : ∀ (v w : Value) (role : Role), Reordered role v w →
    v.refs.length = w.refs.length
  | .atom a, w, role, h => by
    cases h.sides with
    | atom => rfl
  | .list items, w, role, h => by
    cases h.sides with
    | list hitems _ => exact length_refsOfItems items _ hitems
  | .map ms, w, role, h => by
    cases h.sides with
    | @map _ ms' hms =>
      have hown := hms.ownRef_eq
      rw [refs, refs, List.length_append, List.length_append, hown]
      rcases hms with rfl | ⟨ms₁, hmembers, hperm, -⟩
      · rfl
      · rw [length_refsOfMembers ms ms₁ role hmembers, (refsOfMembers_perm hperm).length_eq]

theorem Value.length_refsOfItems : ∀ items items' : List Value,
    List.Forall₂ (Reordered .free) items items' →
    (refsOfItems items).length = (refsOfItems items').length
  | [], items', h => by
    cases h
    rfl
  | v :: rest, items', h => by
    cases h with
    | cons hv hrest =>
      rw [refsOfItems, refsOfItems, List.length_append, List.length_append,
        length_refs v _ _ hv, length_refsOfItems rest _ hrest]

theorem Value.length_refsOfMembers : ∀ (ms ms' : List (Atom × Value)) (role : Role),
    List.Forall₂ (SameMember role) ms ms' →
    (refsOfMembers ms).length = (refsOfMembers ms').length
  | [], ms', role, h => by
    cases h
    rfl
  | (key, v) :: rest, ms', role, h => by
    cases h with
    | cons hv hrest =>
      rw [refsOfMembers, refsOfMembers, List.length_append, List.length_append,
        length_refs v _ _ hv.2, length_refsOfMembers rest _ role hrest]

end
end

end ApiTypes

import ApiTypes.Proofs.Alike
import ApiTypes.Proofs.Reordering

/-!
# Schemas read from reordered values

* `Members.Alike.saySame` : reordered mappings say the same about themselves;
* `Schema.composition?_partsOf` and the like : the parts of a schema are found under their keys;
* `Schema.alike_ofValue` : so reordered values are read as schemas of one shape. The paths of a
  document are left out: their order may differ under `properties` too;
* `Schema.kind?_ofValue` : in any case they are of one kind.
-/

namespace ApiTypes

/-! ## What reordered mappings say -/

namespace Members.Alike

variable {role : Role} {ms ms' : Members}

theorem text_eq (h : Alike role ms ms') (key : String) :
    (ms.field? key).bind Value.text? = (ms'.field? key).bind Value.text? :=
  rel_bind (h.field? key) fun _ _ hvalue => hvalue.text?_eq

theorem flag_eq (h : Alike role ms ms') (key : String) : Value.flag ms key = Value.flag ms' key :=
  rel_any (h.field? key) fun _ _ hvalue => hvalue.isTrue_eq

theorem has_eq (h : Alike role ms ms') (key : String) : ms.has key = ms'.has key :=
  rel_isSome (h.field? key)

/-- What is shown as text is the same. -/
theorem shown_eq (h : Alike role ms ms') {key : String}
    (hshown : role.under (.text key) = .shown) : ms.field? key = ms'.field? key :=
  rel_eq (hshown ▸ h.field? key) fun _ _ hvalue => hvalue.eq_of_shown

theorem enumOf?_eq (h : Alike role ms ms') : Schema.enumOf? ms = Schema.enumOf? ms' := by
  refine rel_bind (h.field? "enum") fun v w hvalue => ?_
  rw [Role.under_enum] at hvalue
  cases hvalue.sides with
  | atom => rfl
  | list _ henum => rw [henum rfl]
  | map => rfl

theorem hasOddType_eq (h : Alike role ms ms') : Schema.hasOddType ms = Schema.hasOddType ms' := by
  have hfield := h.field? "type"
  unfold Schema.hasOddType
  generalize ms.field? "type" = a, ms'.field? "type" = b at hfield ⊢
  cases hfield with
  | none => rfl
  | some hvalue => cases hvalue.sides <;> rfl

theorem texts_eq {items items' : List Value}
    (h : List.Forall₂ (Value.Reordered .free) items items') :
    items.filterMap Value.text? = items'.filterMap Value.text? := by
  induction h with
  | nil => rfl
  | cons hv _ ih => rw [List.filterMap_cons, List.filterMap_cons, hv.text?_eq, ih]

theorem requiredOf_eq (h : Alike role ms ms') : Schema.requiredOf ms = Schema.requiredOf ms' := by
  have hfield := h.field? "required"
  unfold Schema.requiredOf
  generalize ms.field? "required" = a, ms'.field? "required" = b at hfield ⊢
  cases hfield with
  | none => rfl
  | some hvalue =>
    cases hvalue.sides with
    | atom => rfl
    | list hitems _ => exact texts_eq hitems
    | map => rfl

/-- Reordered mappings say the same about themselves. -/
theorem saySame (h : Alike role ms ms') : ms.SaySame ms' where
  ref := h.text_eq "$ref"
  typeName := h.text_eq "type"
  oddType := h.hasOddType_eq
  format := h.text_eq "format"
  nullable := h.flag_eq "nullable"
  readOnly := h.flag_eq "readOnly"
  required := h.requiredOf_eq
  values := h.enumOf?_eq
  description := h.shown_eq role.under_description
  summary := h.shown_eq role.under_summary
  deprecated := h.flag_eq "deprecated"

/-- Members may be left out on both sides. -/
theorem erase (h : Alike role ms ms') (key : String) :
    Alike role (Members.erase ms key) (Members.erase ms' key) := by
  rcases h with rfl | ⟨ms₁, hmembers, hperm, htext, hnodup, hordered⟩
  · exact .inl rfl
  · have hsub : (Members.erase ms key).Sublist ms := List.filter_sublist
    refine .inr ⟨Members.erase ms₁ key, ?_, hperm.filter _,
      fun k hk => htext k ((hsub.map _).subset hk), hnodup.sublist (hsub.map _),
      fun h => by rw [hordered h]⟩
    clear hperm htext hnodup hordered hsub
    induction hmembers with
    | nil => exact .nil
    | @cons m m' rest rest' hm _ ih =>
      unfold Members.erase at ih ⊢
      rw [List.filter_cons, List.filter_cons, hm.1]
      split_ifs
      · exact .cons hm ih
      · exact ih

end Members.Alike

/-- A relation of mappings that say the same, also if a member is left out on both sides. -/
structure Members.Telling (R : Members → Members → Prop) : Prop where
  saySame : ∀ {raw raw'}, R raw raw' → raw.SaySame raw'
  erase : ∀ {raw raw'}, R raw raw' → ∀ key, R (Members.erase raw key) (Members.erase raw' key)

theorem Members.Alike.telling (role : Role) : Telling (Alike role) := ⟨saySame, erase⟩

/-! ## The parts of a schema under their keys -/

namespace Schema

theorem composition?_withComposition (p : Parts) (keyword k : Keyword)
    (parts : Option (List Schema)) : (p.withComposition keyword parts).composition? k =
      if keyword = k then parts else p.composition? k := by
  have hothers : (p.compositions.filter (·.1 ≠ keyword)).find? (·.1 = k) =
      if keyword = k then none else p.compositions.find? (·.1 = k) := by
    rw [List.find?_filter]
    split_ifs with hk
    · subst hk
      exact List.find?_eq_none.2 (by simp)
    · refine congrArg (fun q => List.find? q p.compositions) (funext fun c => ?_)
      by_cases hc : c.1 = k <;> simp [hc, Ne.symm hk]
  unfold Parts.composition? Parts.withComposition
  dsimp only
  rw [List.find?_append, hothers]
  cases parts with
  | none => split_ifs <;> rfl
  | some ss =>
    by_cases hk : keyword = k <;> simp [hk]

/-- A key that is not a given text is not found under it. -/
theorem field?_of_ne {key : Atom} {text : String} (h : key ≠ .text text) (v : Value)
    (ms : Members) :
    Members.field? ((key, v) :: ms) text = ms.field? text := by
  rw [Members.field?_cons, if_neg fun hsame => h (Atom.eq_text_of_same hsame)]

theorem field?_self (text : String) (v : Value) (ms : Members) :
    Members.field? ((.text text, v) :: ms) text = some v := by
  rw [Members.field?_cons, if_pos (by simp [Atom.same])]

theorem composition?_partsOf (ms : Members) (k : Keyword) :
    (partsOf ms).composition? k = (Members.field? ms k.text).bind listOf? := by
  induction ms with
  | nil => rfl
  | cons m rest ih =>
    obtain ⟨key, v⟩ := m
    by_cases hkey : key = .text k.text
    · rw [hkey, field?_self]
      cases k <;> exact (composition?_withComposition ..).trans (if_pos rfl)
    · have hother : ∀ keyword : Keyword, key = .text keyword.text →
          ((partsOf rest).withComposition keyword (listOf? v)).composition? k =
            (Members.field? rest k.text).bind listOf? := by
        intro keyword hkeyword
        rw [composition?_withComposition, if_neg, ih]
        rintro rfl
        exact hkey hkeyword
      rw [field?_of_ne hkey]
      unfold partsOf
      dsimp only
      split
      · exact hother .allOf rfl
      · exact hother .oneOf rfl
      · exact hother .anyOf rfl
      · exact ih
      · exact ih
      · exact ih
      · exact ih

theorem items_partsOf (ms : Members) :
    (partsOf ms).items = (Members.field? ms "items").bind mappingOf? := by
  induction ms with
  | nil => rfl
  | cons m rest ih =>
    obtain ⟨key, v⟩ := m
    by_cases hkey : key = .text "items"
    · rw [hkey, field?_self]
      rfl
    · rw [field?_of_ne hkey]
      unfold partsOf
      dsimp only
      split
      · exact ih
      · exact ih
      · exact ih
      · exact absurd rfl hkey
      · exact ih
      · exact ih
      · exact ih

theorem properties_partsOf (ms : Members) :
    (partsOf ms).properties = ((Members.field? ms "properties").map membersOf).getD [] := by
  induction ms with
  | nil => rfl
  | cons m rest ih =>
    obtain ⟨key, v⟩ := m
    by_cases hkey : key = .text "properties"
    · rw [hkey, field?_self]
      rfl
    · rw [field?_of_ne hkey]
      unfold partsOf
      dsimp only
      split
      · exact ih
      · exact ih
      · exact ih
      · exact ih
      · exact absurd rfl hkey
      · exact ih
      · exact ih

theorem additional_partsOf (ms : Members) : (partsOf ms).additional =
    ((Members.field? ms "additionalProperties").map additionalOf).getD .unsaid := by
  induction ms with
  | nil => rfl
  | cons m rest ih =>
    obtain ⟨key, v⟩ := m
    by_cases hkey : key = .text "additionalProperties"
    · rw [hkey, field?_self]
      rfl
    · rw [field?_of_ne hkey]
      unfold partsOf
      dsimp only
      split
      · exact ih
      · exact ih
      · exact ih
      · exact ih
      · exact ih
      · exact absurd rfl hkey
      · exact ih

/-! ## Schemas of one shape -/

/-- What two values say about other keys is of one shape. -/
inductive Additional.Alike : Additional → Additional → Prop
  | unsaid : Alike .unsaid .unsaid
  | anything : Alike .anything .anything
  | values {s s' : Schema} (h : s.Alike s') : Alike (.values s) (.values s')

/-- The parts of two schemas are of one shape. -/
structure Parts.Alike (p p' : Parts) : Prop where
  compositions : ∀ k, Option.Rel AllAlike (p.composition? k) (p'.composition? k)
  items : Option.Rel Schema.Alike p.items p'.items
  properties : PropertiesAlike p.properties p'.properties
  additional : p.additional.Alike p'.additional

section
variable {raw raw' : Members} {p p' : Parts} (hp : p.Alike p')
include hp

theorem properties_isEmpty : p.properties.isEmpty = p'.properties.isEmpty := by
  have hproperties := hp.properties
  generalize p.properties = a, p'.properties = b at hproperties ⊢
  cases hproperties <;> rfl

theorem objectOf_alike (hraw : raw.SaySame raw') : (objectOf raw p).Alike (objectOf raw' p') := by
  unfold objectOf
  rw [properties_isEmpty hp]
  split_ifs
  · exact .object hraw hp.properties
  · have hadditional := hp.additional
    generalize p.additional = a, p'.additional = b at hadditional ⊢
    cases hadditional with
    | unsaid => exact .bare hraw
    | anything => exact .openRecord hraw
    | values h => exact .record hraw h

theorem simpleOf_alike (hraw : raw.SaySame raw') : (simpleOf raw p).Alike (simpleOf raw' p') := by
  unfold simpleOf
  rw [hraw.typeName, hraw.values, hraw.oddType]
  split
  · have hitems := hp.items
    generalize p.items = a, p'.items = b at hitems ⊢
    cases hitems with
    | none => exact .anyArray hraw
    | some h => exact .array hraw h
  · split
    · exact .enum hraw
    · split_ifs
      · exact .malformed hraw
      · exact .primitive hraw
      · exact objectOf_alike hp hraw

variable {R : Members → Members → Prop} (hR : Members.Telling R)
include hR

theorem composedOf_alike {simple : Members → Parts → Schema}
    (hsimple : ∀ raw raw' : Members, R raw raw' → (simple raw p).Alike (simple raw' p'))
    (keywords : List Keyword) (hraw : R raw raw') :
    (composedOf simple keywords raw p).Alike (composedOf simple keywords raw' p') := by
  induction keywords generalizing simple raw raw' with
  | nil => exact hsimple raw raw' hraw
  | cons keyword later ih =>
    rw [composedOf, composedOf]
    have hparts := hp.compositions keyword
    generalize p.composition? keyword = a, p'.composition? keyword = b at hparts ⊢
    cases hparts with
    | none => exact ih hsimple hraw
    | some hparts =>
      refine .composition (hR.saySame hraw) (hparts.append ?_)
      rw [properties_isEmpty hp]
      split_ifs
      · exact .nil
      · exact .cons (ih (fun _ _ h => simpleOf_alike hp (hR.saySame h)) (hR.erase hraw _)) .nil

theorem ofParts_alike (hraw : R raw raw') :
    (ofParts simpleOf raw p).Alike (ofParts simpleOf raw' p') := by
  have hsame := hR.saySame hraw
  unfold ofParts
  rw [hsame.ref]
  split
  · exact .reference _ hsame
  · exact composedOf_alike hp hR (fun _ _ h => simpleOf_alike hp (hR.saySame h)) _ hraw

end
end Schema

/-! ## Schemas of reordered values -/

theorem rel_option_bind {α β : Type} {R : α → α → Prop} {S : β → β → Prop} {a b : Option α}
    (h : Option.Rel R a b) {f : α → Option β} (hf : ∀ v w, R v w → Option.Rel S (f v) (f w)) :
    Option.Rel S (a.bind f) (b.bind f) := by
  cases h with
  | none => exact .none
  | some h => exact hf _ _ h

/-- What is found under a key is smaller than the mapping. -/
theorem Members.Alike.field?_smaller {role : Role} {ms ms' : Members}
    (h : Members.Alike role ms ms') (key : String) :
    Option.Rel (fun v w => Value.Reordered (role.under (.text key)) v w ∧ sizeOf v < sizeOf ms)
      (ms.field? key) (ms'.field? key) := by
  have hfield := h.field? key
  have hsmaller : ∀ v, ms.field? key = some v → sizeOf v < sizeOf ms := by
    intro v hv
    have hmember := List.sizeOf_lt_of_mem (exists_of_field? hv)
    simp only [Prod.mk.sizeOf_spec] at hmember
    omega
  generalize ms.field? key = a, ms'.field? key = b at hfield hsmaller ⊢
  cases hfield with
  | none => exact .none
  | some hvalue => exact .some ⟨hvalue, hsmaller _ rfl⟩

namespace Schema

/-- Reordered values of less than some size are read as schemas of one shape. -/
def AlikeBelow (size : Nat) : Prop :=
  ∀ (v w : Value) (role : Role), sizeOf v < size → role ≠ .paths → Value.Reordered role v w →
    (ofValue v).Alike (ofValue w)

namespace AlikeBelow

variable {size : Nat} (hbelow : AlikeBelow size)
include hbelow

theorem ofValues {items items' : List Value} (hsize : sizeOf items < size)
    (h : List.Forall₂ (Value.Reordered .free) items items') :
    AllAlike (ofValues items) (ofValues items') := by
  induction h with
  | nil => exact .nil
  | cons hv _ ih =>
    rw [List.cons.sizeOf_spec] at hsize
    exact .cons (hbelow _ _ _ (by omega) (by simp) hv) (ih (by omega))

theorem ofMembers {ms ms' : Members} (hsize : sizeOf ms < size)
    (h : List.Forall₂ (SameMember .properties) ms ms') :
    PropertiesAlike (ofMembers ms) (ofMembers ms') := by
  induction h with
  | nil => exact .nil
  | @cons m m' _ _ hm _ ih =>
    obtain ⟨key, v⟩ := m
    obtain ⟨_, w⟩ := m'
    obtain ⟨rfl, hvalue⟩ := hm
    simp only [List.cons.sizeOf_spec, Prod.mk.sizeOf_spec] at hsize
    exact .cons (hbelow _ _ _ (by omega) (Role.under_ne_paths (.inl (by simp))) hvalue)
      (ih (by omega))

variable {role : Role} {v w : Value} (hsize : sizeOf v < size) (h : Value.Reordered role v w)
include hsize h

theorem listOf? : Option.Rel AllAlike (listOf? v) (listOf? w) := by
  cases h.sides with
  | atom => exact .none
  | list hitems _ =>
    rw [Value.list.sizeOf_spec] at hsize
    exact .some (hbelow.ofValues (by omega) hitems)
  | map => exact .none

theorem mappingOf? (hrole : role ≠ .paths) :
    Option.Rel Schema.Alike (mappingOf? v) (mappingOf? w) := by
  have halike := hbelow v w role hsize hrole h
  cases h.sides with
  | atom => exact .none
  | list => exact .none
  | map => exact .some halike

theorem additionalOf (hrole : role ≠ .paths) : (additionalOf v).Alike (additionalOf w) := by
  have halike := hbelow v w role hsize hrole h
  cases h.sides with
  | atom a =>
    unfold Schema.additionalOf
    split
    · cases ‹_›
    · exact .anything
    · exact .unsaid
    · exact .unsaid
  | list => exact .unsaid
  | map => exact .values halike

end AlikeBelow

theorem partsOf_alike {role : Role} {raw raw' : Members} (hrole : role ≠ .paths)
    (h : Members.Alike role raw raw') (hbelow : AlikeBelow (sizeOf raw)) :
    (partsOf raw).Alike (partsOf raw') where
  compositions k := by
    rw [composition?_partsOf, composition?_partsOf]
    exact rel_option_bind (h.field?_smaller _) fun v w hvalue => hbelow.listOf? hvalue.2 hvalue.1
  items := by
    rw [items_partsOf, items_partsOf]
    exact rel_option_bind (h.field?_smaller _) fun v w hvalue =>
      hbelow.mappingOf? hvalue.2 hvalue.1 (Role.under_ne_paths (.inr (by simp)))
  properties := by
    rw [properties_partsOf, properties_partsOf]
    have hfield := h.field?_smaller "properties"
    rw [Role.under_properties hrole] at hfield
    generalize raw.field? "properties" = a, raw'.field? "properties" = b at hfield ⊢
    cases hfield with
    | none => exact .nil
    | some hvalue =>
      obtain ⟨hvalue, hsize⟩ := hvalue
      cases hvalue.sides with
      | atom => exact .nil
      | list => exact .nil
      | map hms =>
        rw [Value.map.sizeOf_spec] at hsize
        exact hbelow.ofMembers (by omega) hms.forall₂
  additional := by
    rw [additional_partsOf, additional_partsOf]
    have hfield := h.field?_smaller "additionalProperties"
    generalize raw.field? "additionalProperties" = a, raw'.field? "additionalProperties" = b
      at hfield ⊢
    cases hfield with
    | none => exact .unsaid
    | some hvalue =>
      exact hbelow.additionalOf hvalue.2 hvalue.1 (Role.under_ne_paths (.inr (by simp)))

/-- Reordered values are read as schemas of one shape. -/
theorem alike_ofValue {role : Role} {v w : Value} (hrole : role ≠ .paths)
    (h : Value.Reordered role v w) : (ofValue v).Alike (ofValue w) := by
  induction hsize : sizeOf v using Nat.strongRecOn generalizing v w role with
  | _ size ih =>
    cases h.sides with
    | atom => exact .bare (.refl [])
    | list => exact .bare (.refl [])
    | map hraw =>
      rw [Value.map.sizeOf_spec] at hsize
      have hparts := partsOf_alike hrole hraw fun v w role hv hrole h =>
        ih (sizeOf v) (by omega) hrole h rfl
      exact ofParts_alike hparts (Members.Alike.telling role) hraw

/-- Reordered mappings are read as schemas of one shape. -/
theorem alike_ofMembers {role : Role} {raw raw' : Members} (hrole : role ≠ .paths)
    (h : Members.Alike role raw raw') : (ofValue (.map raw)).Alike (ofValue (.map raw')) :=
  ofParts_alike (partsOf_alike hrole h fun _ _ _ _ hrole h => alike_ofValue hrole h)
    (Members.Alike.telling role) h

/-! ## Kinds of schemas

The kind of a schema is read off the top of a mapping, so that of the paths of a document is told as
well. -/

theorem kind?_objectOf (raw : Members) (p : Parts) : (objectOf raw p).kind? = some .object := by
  unfold objectOf
  split_ifs
  · rfl
  · cases p.additional <;> rfl

theorem kind?_simpleOf {raw raw' : Members} (h : raw.SaySame raw') (p p' : Parts) :
    (simpleOf raw p).kind? = (simpleOf raw' p').kind? := by
  unfold simpleOf
  rw [h.typeName, h.values, h.oddType]
  split
  · rfl
  · split
    · rfl
    · split_ifs
      · rfl
      · rfl
      · rw [kind?_objectOf, kind?_objectOf]

theorem kind?_composedOf {p p' : Parts}
    (hparts : ∀ k, (p.composition? k).isSome = (p'.composition? k).isSome)
    {raw raw' : Members} (hraw : raw.SaySame raw') (keywords : List Keyword) :
    (composedOf simpleOf keywords raw p).kind? = (composedOf simpleOf keywords raw' p').kind? := by
  induction keywords with
  | nil => exact kind?_simpleOf hraw p p'
  | cons keyword later ih =>
    have hkeyword := hparts keyword
    rw [composedOf, composedOf]
    generalize p.composition? keyword = a, p'.composition? keyword = b at hkeyword ⊢
    cases a with
    | none =>
      cases b with
      | none => exact ih
      | some _ => cases hkeyword
    | some _ =>
      cases b with
      | none => cases hkeyword
      | some _ => rfl

/-- Reordered mappings are read as schemas of one kind. -/
theorem kind?_ofValue {role : Role} {raw raw' : Members} (h : Members.Alike role raw raw') :
    (ofValue (.map raw)).kind? = (ofValue (.map raw')).kind? := by
  change (ofParts simpleOf raw (partsOf raw)).kind? = (ofParts simpleOf raw' (partsOf raw')).kind?
  unfold ofParts
  rw [h.saySame.ref]
  split
  · rfl
  · refine kind?_composedOf (fun k => ?_) h.saySame _
    rw [composition?_partsOf, composition?_partsOf]
    have hfield := h.field? k.text
    generalize raw.field? k.text = a, raw'.field? k.text = b at hfield ⊢
    cases hfield with
    | none => rfl
    | some hvalue => cases hvalue.sides <;> rfl

end Schema
end ApiTypes

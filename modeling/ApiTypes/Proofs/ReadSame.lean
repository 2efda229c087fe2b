import ApiTypes.Proofs.Keeping
import ApiTypes.Proofs.Ways

/-!
# What is read of a mapping where a reference ends

* `Members.SameSchema` : two mappings have the same members under the words that schemas are read
  from;
* `Schema.alike_of_sameSchema` : so they are read as schemas of one shape;
* `Members.SameField` : the same value, or two mappings that have members and are the same schema;
* `Members.ReadSame` : two mappings of which references that end there read the same, be it as a
  parameter or as a schema;
* `Schema.kind?_isNone_eq` : read as schemas, both have a kind or neither.
-/

namespace ApiTypes

/-! ## The words of schemas -/

/-- The members that a schema is read from. -/
def Schema.words : List String :=
  ["$ref", "type", "format", "nullable", "readOnly", "required", "enum", "description", "summary",
    "deprecated", "allOf", "oneOf", "anyOf", "items", "properties", "additionalProperties"]

namespace Members

theorem field?_erase (ms : Members) (key name : String) :
    (erase ms key).field? name = if key = name then none else ms.field? name := by
  induction ms with
  | nil => exact (ite_self none).symm
  | cons m rest ih =>
    unfold erase at ih ⊢
    by_cases hkey : m.1.same (.text key) = true
    · have heq := Atom.eq_text_of_same hkey
      rw [List.filter_cons_of_neg (by simpa using hkey), ih]
      split_ifs with hname
      · rfl
      · rw [field?_cons, heq, Atom.text_same, if_neg]
        simpa using fun h : Atom.text name = .text key => hname (Atom.text.inj h).symm
    · rw [List.filter_cons_of_pos (by simpa using hkey), field?_cons, field?_cons, ih]
      split_ifs with hsame hname
      · rw [hname] at hkey
        exact absurd hsame hkey
      · rfl
      · rfl
      · rfl

/-- Two mappings have the same members under the words of schemas. -/
def SameSchema (raw raw' : Members) : Prop :=
  ∀ word ∈ Schema.words, raw'.field? word = raw.field? word

namespace SameSchema

variable {raw raw' raw'' : Members}

theorem trans (h : SameSchema raw raw') (h' : SameSchema raw' raw'') : SameSchema raw raw'' :=
  fun word hword => (h' word hword).trans (h word hword)

theorem saySame (h : SameSchema raw raw') : raw.SaySame raw' where
  ref := by rw [Schema.refOf?, Schema.refOf?, h "$ref" (by decide)]
  typeName := by rw [Schema.typeNameOf?, Schema.typeNameOf?, h "type" (by decide)]
  oddType := by
    unfold Schema.hasOddType
    rw [h "type" (by decide)]
  format := by rw [h "format" (by decide)]
  nullable := by rw [Value.flag, Value.flag, h "nullable" (by decide)]
  readOnly := by rw [Value.flag, Value.flag, h "readOnly" (by decide)]
  required := by rw [Schema.requiredOf, Schema.requiredOf, h "required" (by decide)]
  values := by rw [Schema.enumOf?, Schema.enumOf?, h "enum" (by decide)]
  description := (h "description" (by decide)).symm
  summary := (h "summary" (by decide)).symm
  deprecated := by rw [Value.flag, Value.flag, h "deprecated" (by decide)]

theorem erase (h : SameSchema raw raw') (key : String) :
    SameSchema (Members.erase raw key) (Members.erase raw' key) := by
  intro word hword
  rw [field?_erase, field?_erase, h word hword]

theorem telling : Telling SameSchema := ⟨saySame, erase⟩

end SameSchema
end Members

namespace Schema

variable {raw raw' : Members}

theorem partsOf_alike_of_sameSchema (h : raw.SameSchema raw') :
    (partsOf raw).Alike (partsOf raw') where
  compositions k := by
    rw [composition?_partsOf, composition?_partsOf, h k.text (by cases k <;> decide)]
    cases (raw.field? k.text).bind listOf? with
    | none => exact .none
    | some parts => exact .some (.refl parts)
  items := by
    rw [items_partsOf, items_partsOf, h "items" (by decide)]
    cases (raw.field? "items").bind mappingOf? with
    | none => exact .none
    | some items => exact .some (.refl items)
  properties := by
    rw [properties_partsOf, properties_partsOf, h "properties" (by decide)]
    exact .refl _
  additional := by
    rw [additional_partsOf, additional_partsOf, h "additionalProperties" (by decide)]
    cases ((raw.field? "additionalProperties").map additionalOf).getD .unsaid with
    | unsaid => exact .unsaid
    | anything => exact .anything
    | values s => exact .values (.refl s)

theorem alike_of_sameSchema (h : raw.SameSchema raw') :
    (ofValue (.map raw)).Alike (ofValue (.map raw')) :=
  ofParts_alike (partsOf_alike_of_sameSchema h) Members.SameSchema.telling h

end Schema

/-! ## What is read -/

namespace Members

/-- The members that are shown, whatever they are, of the mapping at the end of a reference to a
parameter or a schema. -/
def shownWords : List String := ["description", "summary"]

/-- The other members that are read there. Of a mapping under such a word it counts whether it has
members, and which schema it is. -/
def readWords : List String := ["name", "in", "required", "schema", "deprecated", "type"]

/-- The same value or none, or two mappings that have members and are the same schema. -/
inductive SameField : Option Value → Option Value → Prop
  | same (v : Option Value) : SameField v v
  | mappings {ms ms' : Members} (hms : ms ≠ []) (hms' : ms' ≠ []) (h : ms.SameSchema ms') :
    SameField (some (.map ms)) (some (.map ms'))

namespace SameField

variable {a b c : Option Value}

theorem trans (h : SameField a b) (h' : SameField b c) : SameField a c := by
  cases h with
  | same => exact h'
  | mappings hms _ h =>
    cases h' with
    | same => exact .mappings hms ‹_› h
    | mappings _ hms' h' => exact .mappings hms hms' (h.trans h')

theorem given_eq (h : SameField a b) : b.any Value.isTrue = a.any Value.isTrue := by
  have hgiven : ∀ {ms : Members}, ms ≠ [] → (some (Value.map ms)).any Value.isTrue = true := by
    intro ms hms
    simpa [Value.isTrue] using hms
  cases h with
  | same => rfl
  | mappings hms hms' _ => rw [hgiven hms, hgiven hms']

theorem text?_eq (h : SameField a b) : b.bind Value.text? = a.bind Value.text? := by
  cases h <;> rfl

/-- A key is no mapping, so what is read as one is the same. -/
theorem key_kept (h : SameField a b) (d : Value) :
    Except.Keeps (fun key key' => key' = key ∧ b = a) (Form.key (a.getD d))
      (Form.key (b.getD d)) := by
  cases h with
  | same v => exact fun key hkey => ⟨key, hkey, rfl, rfl⟩
  | mappings => exact .error _ _

theorem alike_orEmpty (h : SameField a b) :
    (Schema.ofValue (Value.orEmpty a)).Alike (Schema.ofValue (Value.orEmpty b)) := by
  cases h with
  | same v => exact .refl _
  | mappings _ _ h =>
    rw [Value.orEmpty_map, Value.orEmpty_map]
    exact Schema.alike_of_sameSchema h

end SameField

/-- Two mappings of which references that end there read the same. -/
structure ReadSame (ms ms' : Members) : Prop where
  ref : Schema.refOf? ms' = Schema.refOf? ms
  items : ∀ keyword, Schema.itemsOf? ms' keyword = Schema.itemsOf? ms keyword
  values : Schema.enumOf? ms' = Schema.enumOf? ms
  shown : ∀ word ∈ shownWords, ms'.field? word = ms.field? word
  field : ∀ word ∈ readWords, SameField (ms.field? word) (ms'.field? word)

namespace ReadSame

variable {ms ms' ms'' : Members}

theorem refl (ms : Members) : ReadSame ms ms :=
  ⟨rfl, fun _ => rfl, rfl, fun _ _ => rfl, fun _ _ => .same _⟩

theorem trans (h : ReadSame ms ms') (h' : ReadSame ms' ms'') : ReadSame ms ms'' where
  ref := h'.ref.trans h.ref
  items keyword := (h'.items keyword).trans (h.items keyword)
  values := h'.values.trans h.values
  shown word hword := (h'.shown word hword).trans (h.shown word hword)
  field word hword := (h.field word hword).trans (h'.field word hword)

theorem typeNameOf?_eq (h : ReadSame ms ms') : Schema.typeNameOf? ms' = Schema.typeNameOf? ms :=
  (h.field "type" (by decide)).text?_eq

theorem hasOddType_eq (h : ReadSame ms ms') : Schema.hasOddType ms' = Schema.hasOddType ms := by
  have htype := h.field "type" (by decide)
  unfold Schema.hasOddType
  generalize ms.field? "type" = a, ms'.field? "type" = b at htype ⊢
  cases htype <;> rfl

theorem flag_eq (h : ReadSame ms ms') {word : String} (hword : word ∈ readWords) :
    Value.flag ms' word = Value.flag ms word :=
  (h.field word hword).given_eq

theorem ofMembers?_eq (h : ReadSame ms ms') :
    Comment.ofMembers? ms' = Comment.ofMembers? ms := by
  unfold Comment.ofMembers?
  rw [h.shown "description" (by decide), h.shown "summary" (by decide),
    Comment.make?_congr (h.flag_eq (by decide : "deprecated" ∈ readWords))]

end ReadSame
end Members

namespace Schema

theorem kind?_composedOf_eq_none (p : Parts) (raw : Members) (keywords : List Keyword) :
    (composedOf simpleOf keywords raw p).kind? = none ↔
      (∀ k ∈ keywords, p.composition? k = none) ∧ (simpleOf raw p).kind? = none := by
  induction keywords with
  | nil => simp [composedOf]
  | cons keyword later ih =>
    rw [composedOf, List.forall_mem_cons]
    cases p.composition? keyword with
    | none => simpa using ih
    | some parts => simp [kind?]

/-- A mapping with an odd type has no kind, unless something else is looked at first. -/
theorem kind?_eq_none (raw : Members) : (ofValue (.map raw)).kind? = none ↔
    refOf? raw = none ∧ (∀ k, itemsOf? raw k = none) ∧ typeNameOf? raw ≠ some "array" ∧
      enumOf? raw = none ∧ hasOddType raw = true := by
  have hcomposition : ∀ k, (partsOf raw).composition? k = none ↔ itemsOf? raw k = none := by
    intro k
    rw [composition?_partsOf, itemsOf?]
    cases Members.field? raw k.text with
    | none => simp
    | some v => cases v <;> simp [listOf?, Value.items?]
  have hall : (∀ k ∈ Keyword.order, (partsOf raw).composition? k = none) ↔
      ∀ k, itemsOf? raw k = none :=
    ⟨fun h k => (hcomposition k).1 (h k (by cases k <;> decide)),
      fun h k _ => (hcomposition k).2 (h k)⟩
  have hsimple : (simpleOf raw (partsOf raw)).kind? = none ↔ typeNameOf? raw ≠ some "array" ∧
      enumOf? raw = none ∧ hasOddType raw = true := by
    unfold simpleOf
    by_cases harray : typeNameOf? raw = some "array"
    · rw [if_pos harray]
      simp [kind?, harray]
    · rw [if_neg harray]
      cases enumOf? raw with
      | some values => simp [kind?]
      | none =>
        dsimp only
        split_ifs with hodd hprimitive
        · simp [kind?, harray, hodd]
        · simp [kind?, hodd]
        · simp [kind?_objectOf, hodd]
  rw [ofValue, ofParts]
  cases refOf? raw with
  | some ref => simp [kind?]
  | none => simp only [kind?_composedOf_eq_none, hall, hsimple, true_and]

theorem kind?_isNone_eq {raw raw' : Members} (h : raw.ReadSame raw') :
    (ofValue (.map raw')).kind?.isNone = (ofValue (.map raw)).kind?.isNone := by
  rw [Bool.eq_iff_iff, Option.isNone_iff_eq_none, Option.isNone_iff_eq_none, kind?_eq_none,
    kind?_eq_none, h.ref, h.typeNameOf?_eq, h.values, h.hasOddType_eq]
  simp only [h.items]

end Schema
end ApiTypes

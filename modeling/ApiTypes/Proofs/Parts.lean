import ApiTypes.Proofs.Entries
import ApiTypes.Proofs.Failures
import ApiTypes.Proofs.Origin

/-!
# What the parts of a document refer to

What is taken from a value refers to what the value refers to:

* `Value.refs_field?`, `Value.refs_orEmpty` : the members of a mapping;
* `Pointer.refs_of_walk` : what a pointer leads to;
* `Form.refs_of_optionalMapping`, `Form.refs_of_row` : mappings and rows that may be left out;
* `Schema.ReadingLaws.inside_ofValue` : what holds of a value and all that is in it is found in the
  schemas that it is read as; so in `Schema.refs_ofValue` its references.
-/

namespace ApiTypes

/-! ## Parts of values -/

namespace Value

theorem refs_of_item {items : List Value} {w : Value} (h : w ∈ items) :
    w.refs ⊆ refsOfItems items := by
  induction items with
  | nil => cases h
  | cons v rest ih =>
    rw [refsOfItems]
    rcases List.mem_cons.1 h with rfl | h
    · exact List.subset_append_left _ _
    · exact List.subset_append_of_subset_right _ (ih h)

theorem mem_refsOfMembers {ms : Members} {ref : String} :
    ref ∈ refsOfMembers ms ↔ ∃ m ∈ ms, ref ∈ m.2.refs := by
  induction ms with
  | nil => simp [refsOfMembers]
  | cons m rest ih =>
    obtain ⟨key, v⟩ := m
    rw [refsOfMembers, List.mem_append, ih, List.exists_mem_cons_iff]

theorem refs_of_member {ms : Members} {m : Atom × Value} (h : m ∈ ms) :
    m.2.refs ⊆ refsOfMembers ms :=
  fun _ href => mem_refsOfMembers.2 ⟨m, h, href⟩

theorem refsOfMembers_subset (ms : Members) : refsOfMembers ms ⊆ (map ms).refs :=
  List.subset_append_right _ _

theorem ref_mem {ms : Members} {ref : String} (h : Schema.refOf? ms = some ref) :
    ref ∈ (map ms).refs := by
  refine List.mem_append_left _ ?_
  rw [ownRef, ← Schema.refOf?, h]
  exact List.mem_singleton_self ref

theorem refs_field? {ms : Members} {key : String} {w : Value} (h : ms.field? key = some w) :
    w.refs ⊆ (map ms).refs :=
  List.Subset.trans (refs_of_member (Members.exists_of_field? h)) (refsOfMembers_subset ms)

theorem refs_orEmpty {v : Option Value} {refs : List String}
    (h : ∀ w, v = some w → w.refs ⊆ refs) : (orEmpty v).refs ⊆ refs := by
  unfold orEmpty
  split
  · split_ifs
    · exact h _ rfl
    · exact List.nil_subset _
  · exact List.nil_subset _

theorem refs_orEmpty_field? (ms : Members) (key : String) :
    (orEmpty (ms.field? key)).refs ⊆ (map ms).refs :=
  refs_orEmpty fun _ => refs_field?

end Value

theorem Members.refs_of_mem_ofList {ms : Members} {m : Atom × Value} (h : m ∈ Members.ofList ms) :
    m.2.refs ⊆ Value.refsOfMembers ms := by
  suffices hall : ∀ acc : Members, (∀ e ∈ acc, e.2.refs ⊆ Value.refsOfMembers ms) →
      ∀ rest ⊆ ms, ∀ e ∈ rest.foldl (fun acc m => Members.put acc m.1 m.2) acc,
        e.2.refs ⊆ Value.refsOfMembers ms by
    exact hall [] (by simp) ms (List.Subset.refl ms) m h
  intro acc hacc rest hrest
  induction rest generalizing acc with
  | nil => exact hacc
  | cons first rest ih =>
    rw [List.cons_subset] at hrest
    refine ih _ (fun e he => ?_) hrest.2
    rcases Keyed.mem_putBy he with heq | ⟨f, hf, heq⟩
    · rw [heq]
      exact Value.refs_of_member hrest.1
    · rw [← heq]
      exact hacc f hf

namespace Pointer

theorem refs_of_step {v w : Value} {token : String} (h : step v token = .ok w) :
    w.refs ⊆ v.refs := by
  cases v with
  | map ms => exact Value.refs_field? (step_map h)
  | list items =>
    rw [step] at h
    split at h
    · split at h
      · split at h
        · cases h
        · split at h
          · rename_i hitem
            obtain rfl := Except.ok.inj h
            exact Value.refs_of_item (List.mem_of_getElem? hitem)
          · cases h
      · cases h
    · cases h
  | atom a => cases h

/-- What a pointer leads to refers to what the document refers to. -/
theorem refs_of_walk {v w : Value} {tokens : List String} (h : walk v tokens = .ok w) :
    w.refs ⊆ v.refs := by
  induction tokens generalizing v with
  | nil =>
    obtain rfl : v = w := by simpa [walk] using h
    exact List.Subset.refl _
  | cons token rest ih =>
    obtain ⟨u, hu, h⟩ := walk_cons h
    exact List.Subset.trans (ih h) (refs_of_step hu)

end Pointer

namespace Form

theorem refs_of_optionalMapping {ms found : Members} {key : String}
    (h : optionalMapping (ms.field? key) = .ok found) :
    (Value.map found).refs ⊆ (Value.map ms).refs := by
  rw [optionalMapping, mapping_ok] at h
  rw [← h]
  exact Value.refs_orEmpty_field? ms key

theorem refs_of_row {v w : Value} {ws : List Value} (h : row v = .ok ws) (hw : w ∈ ws) :
    w.refs ⊆ v.refs := by
  unfold row at h
  split at h
  · obtain rfl := Except.ok.inj h
    exact Value.refs_of_item hw
  · obtain rfl := Except.ok.inj h
    obtain ⟨m, -, rfl⟩ := List.mem_map.1 hw
    exact List.nil_subset _
  · obtain rfl := Except.ok.inj h
    obtain ⟨c, -, rfl⟩ := List.mem_map.1 hw
    exact List.nil_subset _
  · cases h

theorem refs_of_optionalRow {ms : Members} {key : String} {w : Value} {ws : List Value}
    (h : optionalRow (ms.field? key) = .ok ws) (hw : w ∈ ws) : w.refs ⊆ (Value.map ms).refs :=
  List.Subset.trans (refs_of_row h hw) (Value.refs_orEmpty_field? ms key)

theorem mem_of_mem_sorted {α : Type} {keyOf : α → Atom} {as bs : List α}
    (h : sorted keyOf as = .ok bs) {b : α} (hb : b ∈ bs) : b ∈ as := by
  unfold sorted at h
  split_ifs at h
  · obtain rfl := Except.ok.inj h
    exact List.mem_mergeSort.1 hb
  · cases h

end Form

/-! ## The schemas in what is read -/

namespace Schema

theorem insideAll_append (ss ts : List Schema) :
    insideAll (ss ++ ts) = insideAll ss ++ insideAll ts := by
  induction ss with
  | nil => rfl
  | cons s rest ih => rw [List.cons_append, insideAll, ih, insideAll, List.append_assoc]

/-- What a schema is made of apart from the schemas in it: `R` holds of the reference that it is,
`K` of the keys of its properties; if it has an odd type, so says its mapping. -/
def MadeOf (R : String → Prop) (K : List Atom → Prop) : Schema → Prop
  | reference _ ref => R ref
  | object _ properties => K (properties.map Prod.fst)
  | malformed raw => hasOddType raw = true
  | _ => True

/-- `V` holds of all that is in a value if it holds of the value, and gives `R` and `K` of what is
read there. -/
structure ReadingLaws (V : Value → Prop) (R : String → Prop) (K : List Atom → Prop) : Prop where
  item : ∀ items, V (.list items) → ∀ v ∈ items, V v
  member : ∀ ms, V (.map ms) → ∀ m ∈ ms, V m.2
  reference : ∀ ms ref, V (.map ms) → refOf? ms = some ref → R ref
  keys : ∀ ms, V (.map ms) → K (ms.map Prod.fst)

/-- Parts of a schema that are made of what `R` and `K` hold of. -/
structure Parts.MadeOf (p : Parts) (R : String → Prop) (K : List Atom → Prop) : Prop where
  compositions : ∀ c ∈ p.compositions, ∀ t ∈ insideAll c.2, t.MadeOf R K
  items : ∀ s, p.items = some s → ∀ t ∈ s.inside, t.MadeOf R K
  properties : ∀ t ∈ insideProperties p.properties, t.MadeOf R K
  keys : p.properties ≠ [] → K (p.properties.map Prod.fst)
  additional : ∀ s, p.additional = .values s → ∀ t ∈ s.inside, t.MadeOf R K

namespace Parts.MadeOf

variable {p : Parts} {R : String → Prop} {K : List Atom → Prop}

theorem none : Parts.none.MadeOf R K where
  compositions := by simp [Parts.none]
  items := by simp [Parts.none]
  properties := by simp [Parts.none, insideProperties]
  keys := by simp [Parts.none]
  additional := by simp [Parts.none]

theorem withComposition (h : p.MadeOf R K) {parts : Option (List Schema)}
    (hparts : ∀ ss, parts = some ss → ∀ t ∈ insideAll ss, t.MadeOf R K) (keyword : Keyword) :
    (p.withComposition keyword parts).MadeOf R K where
  compositions c hc := by
    rcases List.mem_append.1 hc with hc | hc
    · rw [Option.mem_toList, Option.map_eq_some_iff] at hc
      obtain ⟨ss, hss, rfl⟩ := hc
      exact hparts ss hss
    · exact h.compositions c (List.mem_filter.1 hc).1
  items := h.items
  properties := h.properties
  keys := h.keys
  additional := h.additional

theorem composition? (h : p.MadeOf R K) {keyword : Keyword} {ss : List Schema}
    (hss : p.composition? keyword = some ss) : ∀ t ∈ insideAll ss, t.MadeOf R K := by
  obtain ⟨c, hc, rfl⟩ := Option.map_eq_some_iff.1 hss
  exact h.compositions c (List.mem_of_find?_eq_some hc)

/-- What has no schemas in it is made of what it says itself. -/
theorem forall_inside {s : Schema} (hbeneath : s.beneath = []) (hself : s.MadeOf R K) :
    ∀ t ∈ s.inside, t.MadeOf R K := by
  rw [inside, hbeneath]
  simpa using hself

theorem objectOf (h : p.MadeOf R K) (raw : Members) :
    ∀ t ∈ (objectOf raw p).inside, t.MadeOf R K := by
  unfold Schema.objectOf
  split_ifs with hproperties
  · rw [inside, beneath, List.forall_mem_cons]
    exact ⟨h.keys (by simpa using hproperties), h.properties⟩
  · split
    · exact forall_inside rfl trivial
    · rename_i values hvalues
      rw [inside, beneath, List.forall_mem_cons]
      exact ⟨trivial, h.additional values hvalues⟩
    · exact forall_inside rfl trivial

theorem simpleOf (h : p.MadeOf R K) (raw : Members) :
    ∀ t ∈ (simpleOf raw p).inside, t.MadeOf R K := by
  unfold Schema.simpleOf
  split
  · cases hitems : p.items with
    | none => exact forall_inside rfl trivial
    | some items =>
      rw [inside, beneath, List.forall_mem_cons]
      exact ⟨trivial, h.items items hitems⟩
  · split
    · exact forall_inside rfl trivial
    · split_ifs with hodd
      · exact forall_inside rfl hodd
      · exact forall_inside rfl trivial
      · exact h.objectOf raw

theorem composedOf (h : p.MadeOf R K) (keywords : List Keyword)
    {simple : Members → Parts → Schema}
    (hsimple : ∀ raw, ∀ t ∈ (simple raw p).inside, t.MadeOf R K) (raw : Members) :
    ∀ t ∈ (composedOf simple keywords raw p).inside, t.MadeOf R K := by
  induction keywords generalizing simple raw with
  | nil => exact hsimple raw
  | cons keyword later ih =>
    rw [Schema.composedOf]
    cases hparts : p.composition? keyword with
    | none => exact ih hsimple raw
    | some parts =>
      dsimp only
      rw [inside, beneath, List.forall_mem_cons, insideAll_append, List.forall_mem_append]
      refine ⟨trivial, h.composition? hparts, ?_⟩
      split_ifs
      · simp [insideAll]
      · rw [insideAll, insideAll, List.append_nil]
        exact ih h.simpleOf _

/-- What is made of the parts of a mapping. -/
theorem ofParts (h : p.MadeOf R K) {raw : Members} (href : ∀ ref, refOf? raw = some ref → R ref)
    {simple : Members → Parts → Schema}
    (hsimple : ∀ raw, ∀ t ∈ (simple raw p).inside, t.MadeOf R K) :
    ∀ t ∈ (ofParts simple raw p).inside, t.MadeOf R K := by
  unfold Schema.ofParts
  cases hraw : refOf? raw with
  | none => exact h.composedOf _ hsimple raw
  | some ref => exact forall_inside rfl (href ref hraw)

end Parts.MadeOf

namespace ReadingLaws

variable {V : Value → Prop} {R : String → Prop} {K : List Atom → Prop}

theorem keys_ofMembers (ms : List (Atom × Value)) :
    (ofMembers ms).map Prod.fst = ms.map Prod.fst := by
  induction ms with
  | nil => rfl
  | cons m rest ih =>
    obtain ⟨key, v⟩ := m
    rw [ofMembers, List.map_cons, ih, List.map_cons]

mutual

/-- The schemas in the schema that a value is read as. -/
theorem inside_ofValue (laws : ReadingLaws V R K) : ∀ v : Value, V v →
    ∀ t ∈ (ofValue v).inside, t.MadeOf R K
  | .map raw, hv => by
    have hparts := madeOf_partsOf laws raw (laws.member raw hv)
    rw [ofValue]
    exact hparts.ofParts (fun ref => laws.reference raw ref hv) hparts.simpleOf
  | .list _, _ => Parts.MadeOf.forall_inside rfl trivial
  | .atom _, _ => Parts.MadeOf.forall_inside rfl trivial

theorem inside_ofValues (laws : ReadingLaws V R K) : ∀ vs : List Value, (∀ v ∈ vs, V v) →
    ∀ t ∈ insideAll (ofValues vs), t.MadeOf R K
  | [], _ => by simp [ofValues, insideAll]
  | v :: rest, h => by
    rw [List.forall_mem_cons] at h
    rw [ofValues, insideAll, List.forall_mem_append]
    exact ⟨inside_ofValue laws v h.1, inside_ofValues laws rest h.2⟩

theorem inside_ofMembers (laws : ReadingLaws V R K) : ∀ ms : List (Atom × Value),
    (∀ m ∈ ms, V m.2) → ∀ t ∈ insideProperties (ofMembers ms), t.MadeOf R K
  | [], _ => by simp [ofMembers, insideProperties]
  | (_, v) :: rest, h => by
    rw [List.forall_mem_cons] at h
    rw [ofMembers, insideProperties, List.forall_mem_append]
    exact ⟨inside_ofValue laws v h.1, inside_ofMembers laws rest h.2⟩

theorem inside_listOf? (laws : ReadingLaws V R K) : ∀ (v : Value) (ss : List Schema), V v →
    listOf? v = some ss → ∀ t ∈ insideAll ss, t.MadeOf R K
  | .list items, ss, hv, h => by
    rw [listOf?] at h
    exact Option.some.inj h ▸ inside_ofValues laws items (laws.item items hv)
  | .map _, ss, _, h => by cases h
  | .atom _, ss, _, h => by cases h

theorem inside_membersOf (laws : ReadingLaws V R K) : ∀ v : Value, V v →
    (∀ t ∈ insideProperties (membersOf v), t.MadeOf R K) ∧
      (membersOf v ≠ [] → K ((membersOf v).map Prod.fst))
  | .map ms, hv => by
    rw [membersOf, keys_ofMembers]
    exact ⟨inside_ofMembers laws ms (laws.member ms hv), fun _ => laws.keys ms hv⟩
  | .list _, _ => by simp [membersOf, insideProperties]
  | .atom _, _ => by simp [membersOf, insideProperties]

theorem inside_mappingOf? (laws : ReadingLaws V R K) : ∀ (v : Value) (s : Schema), V v →
    mappingOf? v = some s → ∀ t ∈ s.inside, t.MadeOf R K
  | .map raw, s, hv, h => by
    rw [mappingOf?, ← ofValue] at h
    exact Option.some.inj h ▸ inside_ofValue laws (.map raw) hv
  | .list _, s, _, h => by cases h
  | .atom _, s, _, h => by cases h

theorem inside_additionalOf (laws : ReadingLaws V R K) : ∀ (v : Value) (s : Schema), V v →
    additionalOf v = .values s → ∀ t ∈ s.inside, t.MadeOf R K
  | .map raw, s, hv, h => by
    rw [additionalOf, ← ofValue] at h
    exact Additional.values.inj h ▸ inside_ofValue laws (.map raw) hv
  | .list _, s, _, h => by cases h
  | .atom a, s, _, h => by
    cases a with
    | bool b => cases b <;> cases h
    | _ => cases h

theorem madeOf_partsOf (laws : ReadingLaws V R K) : ∀ ms : List (Atom × Value),
    (∀ m ∈ ms, V m.2) → (partsOf ms).MadeOf R K
  | [], _ => .none
  | (key, v) :: rest, h => by
    rw [List.forall_mem_cons] at h
    obtain ⟨hv, hrest⟩ := h
    have hrest := madeOf_partsOf laws rest hrest
    have hlist := fun ss => inside_listOf? laws v ss hv
    unfold partsOf
    dsimp only
    split
    · exact hrest.withComposition hlist _
    · exact hrest.withComposition hlist _
    · exact hrest.withComposition hlist _
    · exact { hrest with items := fun s => inside_mappingOf? laws v s hv }
    · obtain ⟨hproperties, hkeys⟩ := inside_membersOf laws v hv
      exact { hrest with properties := hproperties, keys := hkeys }
    · exact { hrest with additional := fun s => inside_additionalOf laws v s hv }
    · exact hrest

end

/-- Values that refer to nothing but given references. -/
theorem of_refs (refs : List String) :
    ReadingLaws (·.refs ⊆ refs) (· ∈ refs) (fun _ => True) where
  item _ h _ hv := List.Subset.trans (Value.refs_of_item hv) h
  member ms h _ hm :=
    List.Subset.trans (Value.refs_of_member hm) (List.Subset.trans (Value.refsOfMembers_subset ms) h)
  reference _ _ h href := h (Value.ref_mem href)
  keys _ _ := trivial

end ReadingLaws

/-! ## What is read of a mapping -/

theorem raw_objectOf (raw : Members) (p : Parts) : (objectOf raw p).raw = raw := by
  unfold objectOf
  split_ifs
  · rfl
  · split <;> rfl

theorem raw_simpleOf (raw : Members) (p : Parts) : (simpleOf raw p).raw = raw := by
  unfold simpleOf
  split
  · rfl
  · split
    · rfl
    · split_ifs
      · rfl
      · rfl
      · exact raw_objectOf raw p

theorem raw_composedOf {simple : Members → Parts → Schema} {p : Parts}
    (hsimple : ∀ raw, (simple raw p).raw = raw) (keywords : List Keyword) (raw : Members) :
    (composedOf simple keywords raw p).raw = raw := by
  induction keywords with
  | nil => exact hsimple raw
  | cons keyword later ih =>
    rw [composedOf]
    split
    · rfl
    · exact ih

/-- A schema keeps the mapping that it is read from. -/
theorem raw_ofValue (raw : Members) : (ofValue (.map raw)).raw = raw := by
  rw [ofValue]
  unfold ofParts
  split
  · rfl
  · exact raw_composedOf (fun raw => raw_simpleOf raw _) _ raw

/-- A schema without a kind is read from a mapping with an odd type. -/
theorem hasOddType_of_malformed {v : Value} {raw : Members}
    (h : .malformed raw ∈ (ofValue v).inside) :
    hasOddType raw = true :=
  have laws : ReadingLaws (fun _ => True) (fun _ => True) (fun _ => True) :=
    ⟨fun _ _ _ _ => trivial, fun _ _ _ _ => trivial, fun _ _ _ _ => trivial, fun _ _ => trivial⟩
  laws.inside_ofValue v trivial _ h

/-- The schema that a value is read as refers to what the value refers to. -/
theorem refs_ofValue (v : Value) : (ofValue v).refs ⊆ v.refs := by
  intro ref href
  obtain ⟨raw, hmem⟩ := mem_refs.1 href
  exact (ReadingLaws.of_refs v.refs).inside_ofValue v (List.Subset.refl _) _ hmem

end Schema
end ApiTypes

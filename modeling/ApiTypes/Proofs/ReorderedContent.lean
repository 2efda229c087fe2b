import ApiTypes.Operation
import ApiTypes.Proofs.ReorderedReferences
import ApiTypes.Proofs.RowOrder

/-!
# Responses and request bodies in reordered documents

* `Components.jsonSchemaOf_reordered` : the schema of their JSON content is found in both, or in
  neither;
* `Operation.contentOf_reordered` : so their types are the same;
* `Operation.successResponse?_reordered` : the response whose type counts does not depend on the
  order of the responses;
* `Components.names_reordered` : the components claim the same names, in some order.
-/

namespace ApiTypes

/-! ## JSON content -/

section
variable {role : Role} {v w : Value} (h : Value.Reordered role v w)
include h

theorem Value.members?_reordered : Option.Rel (Members.Alike role) v.members? w.members? := by
  cases h.sides with
  | atom => exact .none
  | list => exact .none
  | map hms => exact .some hms

theorem Value.field?_reordered (key : String) :
    Option.Rel (Reordered (role.under (.text key))) (v.field? key) (w.field? key) :=
  rel_option_bind (members?_reordered h) fun _ _ hms => hms.field? key

end

namespace Components

theorem entrySchema?_reordered {role : Role} {a b : Option Value}
    (h : Option.Rel (Value.Reordered role) a b) :
    Option.Rel Members.RelatedInside (entrySchema? a) (entrySchema? b) :=
  rel_option_bind (rel_option_bind h fun _ _ hv => Value.field?_reordered hv "schema")
    fun _ _ hv => rel_imp (Value.members?_reordered hv) fun _ _ hms =>
      ⟨_, Role.under_ne_paths (.inr (by simp)), hms⟩

/-- The first schema under a JSON media type is the same. -/
theorem firstSchema_reordered {role : Role} {content content' : Members}
    (h : Members.Alike role content content') (mediaTypes : List Atom) :
    Except.Agree (Option.Rel Members.RelatedInside) (firstSchema content mediaTypes)
      (firstSchema content' mediaTypes) := by
  induction mediaTypes with
  | nil => exact .ok .none
  | cons mediaType rest ih =>
    cases mediaType with
    | text mediaType =>
      rw [firstSchema, firstSchema]
      split_ifs
      · have hentry := entrySchema?_reordered (h.field? mediaType)
        generalize entrySchema? (content.field? mediaType) = a,
          entrySchema? (content'.field? mediaType) = b at hentry ⊢
        cases hentry with
        | none => exact ih
        | some hschema => exact .ok (.some hschema)
      · exact ih
    | _ => exact .error _

theorem jsonSchemaOf_reordered {component component' : Members}
    (h : Members.RelatedInside component component') :
    Except.Agree (Option.Rel Members.RelatedInside) (jsonSchemaOf component)
      (jsonSchemaOf component') := by
  obtain ⟨role, hrole, hms⟩ := h
  unfold jsonSchemaOf
  rw [hms.has_eq]
  split_ifs
  · exact .ok (.some ⟨role, hrole, hms⟩)
  · have hcontent := Value.orEmpty_reordered (hms.field? "content")
    refine .bind_eq (Form.sortedRow_reordered hcontent) fun mediaTypes => ?_
    exact (Form.mapping_reordered hcontent).bind fun _ _ hms => firstSchema_reordered hms _

end Components

/-! ## Bodies and responses -/

namespace Operation

section
variable {ctx ctx' : Context} (h : ctx.Reordered ctx')
include h

/-- The type of a request body or a response is the same. -/
theorem content_reordered (name : String) {component component' : Members}
    (hcomponent : Members.RelatedInside component component') :
    Timed.Agree (Option.Rel Resolved.Alike) (content ctx name component)
      (content ctx' name component') := by
  unfold content
  rw [hcomponent.saySame.ref]
  split
  · exact .bind_eq (h.info _) fun info => .pure (.some (.refl _))
  · refine Timed.Agree.bind (.ofExcept (Components.jsonSchemaOf_reordered hcomponent))
      fun a b hab => ?_
    cases hab with
    | none => exact .pure .none
    | some hschema =>
      obtain ⟨role, hrole, hms⟩ := hschema
      have hvalue := Schema.alike_ofMembers hrole hms
      exact (h.slot hvalue _ _).bind fun _ _ hr => .pure (.some hr)

theorem contentOf_reordered (name : String) {a b : Option Value}
    (hab : Option.Rel Value.RelatedInside a b) :
    Timed.Agree (Option.Rel Resolved.Alike) (contentOf ctx name a) (contentOf ctx' name b) := by
  cases hab with
  | none => exact .pure .none
  | some hvalue =>
    obtain ⟨role, hrole, hvalue⟩ := hvalue
    cases hvalue.sides with
    | atom => exact .pure .none
    | list => exact .pure .none
    | map hms => exact content_reordered h name ⟨role, hrole, hms⟩

end

/-! ## The response that counts -/

theorem putBy_of_not_same {κ α : Type} {same : κ → κ → Bool} {m : Keyed κ α} {key : κ}
    (h : ∀ e ∈ m, same e.1 key = false) (v : α) : m.putBy same key v = m ++ [(key, v)] := by
  induction m with
  | nil => rfl
  | cons e rest ih =>
    rw [List.forall_mem_cons] at h
    rw [Keyed.putBy, h.1, ih h.2]
    rfl

/-- Members whose keys are texts, each there once, are their own list. -/
theorem ofList_of_nodup {ms : Members} (htext : ∀ key ∈ ms.map Prod.fst, key.text?.isSome = true)
    (hnodup : (ms.map Prod.fst).Nodup) : Members.ofList ms = ms := by
  suffices hall : ∀ acc : Members, (acc.map Prod.fst ++ ms.map Prod.fst).Nodup →
      ms.foldl (fun acc m => Members.put acc m.1 m.2) acc = acc ++ ms from hall [] hnodup
  clear hnodup
  induction ms with
  | nil => exact fun acc _ => (List.append_nil acc).symm
  | cons m rest ih =>
    intro acc hnodup
    rw [List.map_cons, List.forall_mem_cons] at htext
    have hnew : ∀ e ∈ acc, e.1.same m.1 = false := by
      intro e he
      by_contra hsame
      rw [Atom.eq_text htext.1, Bool.not_eq_false] at hsame
      refine (List.nodup_append.1 hnodup).2.2 e.1 (List.mem_map_of_mem he) m.1 (by simp) ?_
      rw [Atom.eq_text htext.1, Atom.eq_text_of_same hsame]
    have hput : Members.put acc m.1 m.2 = acc ++ [m] := putBy_of_not_same hnew m.2
    rw [List.foldl_cons, hput, ih htext.2, List.append_assoc]
    · rfl
    · rw [List.map_append, List.append_assoc]
      exact hnodup

theorem byCode_of_nodup {ms : Members} (htext : ∀ key ∈ ms.map Prod.fst, key.text?.isSome = true)
    (hnodup : (ms.map Prod.fst).Nodup) : byCode ms = ms := by
  have hsame : (ms.map fun m => (Atom.text m.1.plain, m.2)) = ms := by
    conv_rhs => rw [← List.map_id ms]
    refine List.map_congr_left fun m hm => ?_
    obtain ⟨key, v⟩ := m
    rw [Atom.eq_text (htext key (List.mem_map_of_mem hm))]
    rfl
  rw [byCode, hsame, ofList_of_nodup htext hnodup]

section
variable {role : Role} {responses responses' : Members}
  (h : Members.Alike role responses responses')
include h

theorem keys_perm : (responses.map Prod.fst).Perm (responses'.map Prod.fst) := by
  rcases h with rfl | ⟨ms₁, hmembers, hperm, -⟩
  · exact .refl _
  · exact Members.keys_of_forall₂ hmembers ▸ hperm.map Prod.fst

theorem byCode_reordered : Members.Alike role (byCode responses) (byCode responses') := by
  have hkeys := keys_perm h
  rcases h with rfl | ⟨ms₁, hmembers, hperm, htext, hnodup, hordered⟩
  · exact .inl rfl
  · rw [byCode_of_nodup htext hnodup, byCode_of_nodup (fun k hk => htext k (hkeys.mem_iff.2 hk))
      (hkeys.nodup_iff.1 hnodup)]
    exact .inr ⟨ms₁, hmembers, hperm, htext, hnodup, hordered⟩

theorem codes_perm : (codes responses).Perm (codes responses') := by
  have hcodes : ∀ ms : Members, codes ms = (ms.map Prod.fst).filterMap Atom.text? := by
    intro ms
    rw [List.filterMap_map]
    rfl
  rw [hcodes, hcodes]
  exact (keys_perm h).filterMap _

end

theorem findSome?_related {α β : Type} {R : β → β → Prop} {f g : α → Option β}
    (h : ∀ a, Option.Rel R (f a) (g a)) (as : List α) :
    Option.Rel R (as.findSome? f) (as.findSome? g) := by
  induction as with
  | nil => exact .none
  | cons a rest ih =>
    have ha := h a
    rw [List.findSome?_cons, List.findSome?_cons]
    generalize f a = x, g a = y at ha ⊢
    cases ha with
    | none => exact ih
    | some hab => exact .some hab

/-- The response that counts does not depend on the order of the responses. -/
theorem successResponse?_reordered {role : Role} {responses responses' : Members}
    (h : Members.Alike role responses responses') (hrole : role ≠ .document) :
    Option.Rel Value.RelatedInside (successResponse? responses) (successResponse? responses') := by
  have hbyCode := byCode_reordered h
  have hfield : ∀ code, Option.Rel Value.RelatedInside ((byCode responses).field? code)
      ((byCode responses').field? code) := fun code =>
    rel_imp (hbyCode.field? code) fun _ _ hv => ⟨_, Role.under_ne_paths (.inl hrole), hv⟩
  have hothers : ((codes (byCode responses)).filter (Text.startsWith · "2")).mergeSort (· ≤ ·) =
      ((codes (byCode responses')).filter (Text.startsWith · "2")).mergeSort (· ≤ ·) :=
    mergeSort_eq_of_perm (fun a b c => by simpa using String.le_trans)
      (fun a b => by simpa using String.le_total a b)
      (fun a _ b _ => by simpa using String.le_antisymm) ((codes_perm hbyCode).filter _)
  have hfound := findSome?_related hfield (successCodes ++
    ((codes (byCode responses)).filter (Text.startsWith · "2")).mergeSort (· ≤ ·))
  unfold successResponse?
  dsimp only
  rw [← hothers]
  generalize List.findSome? _ _ = a, List.findSome? (Members.field? (byCode responses')) _ = b
    at hfound ⊢
  cases hfound with
  | none => exact hfield "default"
  | some hvalue => exact .some hvalue

end Operation

/-! ## Names -/

namespace Components

section
variable {ctx ctx' : Context} (h : ctx.Reordered ctx')
include h

theorem namesOfTypes_reordered {components components' : Members}
    (hcomponents : components.Related components') (types : List String) :
    Except.Agree List.Perm (namesOfTypes ctx components types)
      (namesOfTypes ctx' components' types) := by
  induction types with
  | nil => exact .ok (.refl _)
  | cons componentType rest ih =>
    obtain ⟨role, hms⟩ := hcomponents
    refine .bind_eq (h.suffixFor componentType) fun suffix => ?_
    refine (Form.optionalRow_reordered (hms.field? componentType)).bind fun keys keys' hkeys => ?_
    refine (Form.mapM_rowsAlike (fun v w hvw => ?_) (fun v => ?_) hkeys).bind
      fun names names' hnames => ih.bind fun _ _ hrest => .ok (hnames.append hrest)
    · rw [Form.pascal_reordered hvw]
    · exact (Form.pascal_notText v).bind fun name _ => Form.suffixed_notText name suffix

/-- The components of reordered documents claim the same names. -/
theorem names_reordered : Except.Agree List.Perm (names ctx) (names ctx') := by
  have hdocument := Registry.document_reordered h.registry ctx.target
  unfold names
  rw [← h.target]
  refine (Form.mapping_reordered hdocument).bind fun ms ms' hms => ?_
  refine (Form.optionalMapping_reordered (hms.field? "components")).bind fun cs cs' hcs => ?_
  refine (Form.optionalRow_reordered (hcs.field? "schemas")).bind fun keys keys' hkeys => ?_
  refine (Form.mapM_rowsAlike (fun v w hvw => Form.pascal_reordered hvw) Form.pascal_notText
    hkeys).bind fun _ _ hschemas => ?_
  exact (namesOfTypes_reordered h ⟨_, hcs⟩ _).bind fun _ _ hnames => .ok (hschemas.append hnames)

end

end Components

end ApiTypes

import ApiTypes.Proofs.Outcome
import ApiTypes.Resolve

/-!
# The names that types and models use

* `TypeExpr.names`, `Model.names` : the declared names that a type or a model uses;
* `Resolve.names_guarded`, `Resolve.names_operand` : parentheses use no names;
* `Resolve.RefNamed` : what is a reference is written as a name;
* `Resolve.info_ok`, `Resolve.reference_ok` : what a reference that is found stands for.
-/

namespace ApiTypes

namespace TypeExpr

mutual

/-- The declared names that a type uses. -/
def names : TypeExpr → List String
  | builtin _ | literals _ | openRecord | emptyObject => []
  | name n => [n]
  | array t | paren t | record t | nullable t => names t
  | join _ operands => namesOfAll operands
  | object members => namesOfMembers members
  | valuesOf constant => [constant]

/-- The names that some types use. -/
def namesOfAll : List TypeExpr → List String
  | [] => []
  | t :: rest => names t ++ namesOfAll rest

/-- The names that the members of an object type use. -/
def namesOfMembers : List (MemberHead × TypeExpr) → List String
  | [] => []
  | (_, t) :: rest => names t ++ namesOfMembers rest

end

theorem mem_namesOfAll {n : String} {ts : List TypeExpr} :
    n ∈ namesOfAll ts ↔ ∃ t ∈ ts, n ∈ t.names := by
  induction ts with
  | nil => simp [namesOfAll]
  | cons t rest ih => simp [namesOfAll, ih]

theorem mem_namesOfMembers {n : String} {ms : List (MemberHead × TypeExpr)} :
    n ∈ namesOfMembers ms ↔ ∃ m ∈ ms, n ∈ m.2.names := by
  induction ms with
  | nil => simp [namesOfMembers]
  | cons m rest ih => simp [namesOfMembers, ih]

end TypeExpr

/-- The names that a part of a merged enum uses. -/
def EnumPart.names : EnumPart → List String
  | spread constant => [constant]
  | values _ => []

/-- The declared names that a model uses; an enum is the type of its own values. -/
def Model.names : Model → List String
  | interface _ _ t | synonym _ _ t => t.names
  | empty _ _ => []
  | enum _ name _ => [name]
  | mergedEnum _ parts => parts.flatMap EnumPart.names
  | both first second => first.names ++ second.names

namespace Resolve

@[simp]
theorem names_guarded (operators : List Char) (t : TypeExpr) :
    (guarded operators t).names = t.names := by
  unfold guarded
  split
  · rw [TypeExpr.names]
  · rfl

@[simp]
theorem names_operand (keyword : Keyword) (r : Resolved) :
    (operand keyword r).names = r.type.names := by
  unfold operand
  split
  · exact names_guarded _ _
  · rfl

/-! ## References -/

/-- What is a reference is written as a name. -/
def RefNamed (r : Resolved) : Prop := r.isRef = true → ∃ n, r.type = .name n

theorem RefNamed.of_eq_false {r : Resolved} (h : r.isRef = false) : RefNamed r := by
  intro href
  rw [h] at href
  cases href

theorem suffixed_ok {name : String} {suffix : Value} {n : String}
    (h : Form.suffixed name suffix = .ok n) : ∃ s, suffix = .text s ∧ n = name ++ s := by
  unfold Form.suffixed at h
  obtain ⟨s, hs, h⟩ := Except.bind_eq_ok.1 h
  exact ⟨s, Form.text_of_ok hs, by simpa [pure, Except.pure] using h.symm⟩

/-- What a reference that is found stands for: a place in a document, and the name of that place. -/
theorem info_ok {ctx : Context} {ref : String} {info : Reference.Info}
    (h : Reference.info ctx ref = .ok info) :
    ∃ located original suffix, Reference.locate ctx ref = .ok located ∧
      Reference.originalName ref (Pointer.tokens located.pointer) = .ok original ∧
      Reference.suffixOf ctx (Pointer.tokens located.pointer) = .ok (.text suffix) ∧
      info = {
        name := Name.pascal original ++ suffix
        originalName := original
        document := located.document
        pointer := located.pointer
        tokens := Pointer.tokens located.pointer } := by
  unfold Reference.info at h
  obtain ⟨located, hlocated, h⟩ := Except.bind_eq_ok.1 h
  obtain ⟨original, horiginal, h⟩ := Except.bind_eq_ok.1 h
  obtain ⟨suffix, hsuffix, h⟩ := Except.bind_eq_ok.1 h
  obtain ⟨name, hname, h⟩ := Except.bind_eq_ok.1 h
  obtain ⟨text, rfl, rfl⟩ := suffixed_ok hname
  simp only [pure, Except.pure, Except.ok.injEq] at h
  exact ⟨located, original, text, hlocated, horiginal, hsuffix, h.symm⟩

/-- A reference that is found has a name, imports it, and declares nothing. -/
theorem reference_ok {ctx : Context} {ref : String} {r : Resolved}
    (h : reference ctx ref = .ok r) :
    ∃ info raw deeper, Reference.info ctx ref = .ok info ∧
      Reference.follow ctx ref = .ok (raw, deeper) ∧
      r = {
        type := .name info.name
        imports := [⟨info.name, some info.document⟩]
        declarations := []
        isEnum := (Schema.enumOf? raw).isSome
        kind := ((Schema.typeNameOf? raw).filter (· ≠ "")).getD "object"
        isRef := true
        raw } := by
  unfold reference at h
  cases hinfo : Reference.info ctx ref with
  | error e => simp [hinfo, bind, Except.bind] at h
  | ok info =>
    cases hfollow : Reference.follow ctx ref with
    | error e => simp [hinfo, hfollow, bind, Except.bind] at h
    | ok target =>
      obtain ⟨raw, deeper⟩ := target
      simp only [hinfo, hfollow, bind, Except.bind] at h
      split at h
      · simp [Form.fail] at h
      · simp only [pure, Except.pure, Except.ok.injEq] at h
        exact ⟨info, raw, deeper, rfl, rfl, h.symm⟩

theorem refNamed_ofSchema (raw : Members) (r : Resolved) : RefNamed (r.ofSchema raw) :=
  .of_eq_false rfl

/-- A type in a slot that is a reference is written as a name. -/
theorem RefNamed.hoist {r : Resolved} (h : RefNamed r) (name : Option String) (combined : Bool) :
    RefNamed (hoist name combined r) := by
  unfold Resolve.hoist
  cases name with
  | none => exact h
  | some n =>
    dsimp only
    split
    · intro _
      exact ⟨n, rfl⟩
    · split
      · intro _
        exact ⟨n, rfl⟩
      · exact h

end Resolve
end ApiTypes

import ApiTypes.Proofs.Written
import Mathlib.Data.Set.Basic

/-!
# The values of types

* `TypeExpr.Reading`, `TypeExpr.meaning` : the values that a type has, by those of names and of the
  ways to make a type of others;
* `Written.Reading`, `Written.meaning` : the same by what a text says, where all that is no
  operator, list or object is a word; `Written.Same.meaning` : types that are one have the same
  values;
* `TypeExpr.meaning_written` : what a type says has the values of the type.
-/

namespace ApiTypes

namespace TypeExpr

/-- What types say of values of some kind: which values each of them has. -/
structure Reading (V : Type) where
  builtin : Builtin → Set V
  name : String → Set V
  literals : List Value → Set V
  valuesOf : String → Set V
  array : Set V → Set V
  object : List (MemberHead × Set V) → Set V
  record : Set V → Set V
  openRecord : Set V
  emptyObject : Set V
  nullName : name "null" = builtin .null

/-- The values of types that are joined. -/
def valuesOfJoin {V : Type} (op : Operator) (sets : List (Set V)) : Set V :=
  match op with
  | .and => {v | ∀ s ∈ sets, v ∈ s}
  | .or => {v | ∃ s ∈ sets, v ∈ s}

theorem valuesOfJoin_nested {V : Type} (op : Operator) (before inner after : List (Set V)) :
    valuesOfJoin op (before ++ valuesOfJoin op inner :: after) =
      valuesOfJoin op (before ++ inner ++ after) := by
  ext v
  cases op with
  | and =>
    simp only [valuesOfJoin, Set.mem_ofPred_eq, List.mem_append, List.mem_cons, or_imp, forall_and,
      forall_eq, and_assoc]
  | or =>
    simp only [valuesOfJoin, Set.mem_ofPred_eq, List.mem_append, List.mem_cons, or_and_right,
      exists_or, exists_eq_left, or_assoc]

theorem valuesOfJoin_again {V : Type} (s : Set V) (before between after : List (Set V)) :
    valuesOfJoin .or (before ++ s :: between ++ s :: after) =
      valuesOfJoin .or (before ++ s :: between ++ after) := by
  ext v
  simp only [valuesOfJoin, Set.mem_ofPred_eq, List.mem_append, List.mem_cons]
  grind

section
variable {V : Type} (R : Reading V)

mutual

/-- The values of a type. Parentheses have those of what they enclose: which operator joins what is
decided by the type here, and by the text where that is read (`Resolve.meaning_read`). -/
def meaning : TypeExpr → Set V
  | builtin b => R.builtin b
  | name n => R.name n
  | literals values => R.literals values
  | valuesOf constant => R.valuesOf constant
  | array t => R.array (meaning t)
  | paren t => meaning t
  | join op operands => valuesOfJoin op (meaningAll operands)
  | object members => R.object (meaningMembers members)
  | record t => R.record (meaning t)
  | openRecord => R.openRecord
  | emptyObject => R.emptyObject
  | nullable t => valuesOfJoin .or [meaning t, R.builtin .null]

/-- The values of each of some types. -/
def meaningAll : List TypeExpr → List (Set V)
  | [] => []
  | t :: rest => meaning t :: meaningAll rest

/-- The members of an object type, with the values of each. -/
def meaningMembers : List (MemberHead × TypeExpr) → List (MemberHead × Set V)
  | [] => []
  | (h, t) :: rest => (h, meaning t) :: meaningMembers rest

end

theorem meaningAll_eq_map (ts : List TypeExpr) : meaningAll R ts = ts.map (meaning R) := by
  induction ts with
  | nil => rfl
  | cons t rest ih => rw [meaningAll, ih, List.map_cons]

theorem meaningMembers_eq_map (ms : List (MemberHead × TypeExpr)) :
    meaningMembers R ms = ms.map fun m => (m.1, meaning R m.2) := by
  induction ms with
  | nil => rfl
  | cons m rest ih => rw [meaningMembers, ih, List.map_cons]

/-- Parentheses that a type needs do not change its values. -/
@[simp]
theorem meaning_operand (keyword : Keyword) (r : Resolved) :
    (Resolve.operand keyword r).meaning R = r.type.meaning R := by
  unfold Resolve.operand Resolve.guarded
  split_ifs
  · rw [meaning]
  · rfl
  · rfl

end

end TypeExpr

/-! ## The values of what is written -/

/-- What words and the brackets of lists and objects say of values of some kind. -/
structure Written.Reading (V : Type) where
  word : String → Set V
  array : Set V → Set V
  object : List (String × Set V) → Set V

namespace Written

section
variable {V : Type} (R : Reading V)

mutual

/-- The values of a type. -/
def meaning : Written → Set V
  | word text => R.word text
  | array w => R.array (meaning w)
  | join op operands => TypeExpr.valuesOfJoin op (meaningAll operands)
  | object members => R.object (meaningMembers members)

/-- The values of each of some types. -/
def meaningAll : List Written → List (Set V)
  | [] => []
  | w :: rest => meaning w :: meaningAll rest

/-- The members of an object, with the values of each. -/
def meaningMembers : List (String × Written) → List (String × Set V)
  | [] => []
  | (h, w) :: rest => (h, meaning w) :: meaningMembers rest

end

theorem meaningAll_eq_map (ws : List Written) : meaningAll R ws = ws.map (meaning R) := by
  induction ws with
  | nil => rfl
  | cons w rest ih => rw [meaningAll, ih, List.map_cons]

theorem meaningMembers_eq_map (ms : List (String × Written)) :
    meaningMembers R ms = ms.map fun m => (m.1, meaning R m.2) := by
  induction ms with
  | nil => rfl
  | cons m rest ih => rw [meaningMembers, ih, List.map_cons]

/-- Types that are one type have the same values, whatever their words stand for. -/
theorem Same.meaning {w v : Written} (h : Same w v) : w.meaning R = v.meaning R := by
  induction h with
  | refl => rfl
  | symm _ ih => exact ih.symm
  | trans _ _ ihw ihv => exact ihw.trans ihv
  | array _ ih => rw [Written.meaning, Written.meaning, ih]
  | operand op before after _ ih =>
    simp only [Written.meaning, meaningAll_eq_map, List.map_append, List.map_cons, ih]
  | member head before after _ ih =>
    simp only [Written.meaning, meaningMembers_eq_map, List.map_append, List.map_cons, ih]
  | single op w =>
    cases op <;> simp [Written.meaning, meaningAll, TypeExpr.valuesOfJoin]
  | nested op before inner after =>
    simp only [Written.meaning, meaningAll_eq_map, List.map_append, List.map_cons]
    exact TypeExpr.valuesOfJoin_nested op _ _ _
  | again w before between after =>
    simp only [Written.meaning, meaningAll_eq_map, List.map_append, List.map_cons]
    exact TypeExpr.valuesOfJoin_again _ _ _ _

/-- What types say by what their words say. -/
def Reading.ofTypes : TypeExpr.Reading V where
  builtin b := R.word b.text
  name n := R.word n
  literals values :=
    if values.isEmpty then R.word Builtin.never.text
    else TypeExpr.valuesOfJoin .or ((Enum.literals values).map R.word)
  valuesOf constant := R.word (TypeExpr.valuesText constant)
  array := R.array
  object members := R.object (members.map fun m => (m.1.text, m.2))
  record s := R.object [(TypeExpr.anyKey, s)]
  openRecord := R.object [(TypeExpr.anyKey, R.word TypeExpr.anyWord)]
  emptyObject := R.object []
  nullName := rfl

end

end Written

namespace TypeExpr

variable {V : Type} (R : Written.Reading V)

mutual

/-- What a type says has the values of the type. -/
theorem meaning_written : ∀ t : TypeExpr, t.written.meaning R = t.meaning R.ofTypes
  | builtin _ | name _ | openRecord | emptyObject | valuesOf _ => rfl
  | literals values => by
    rw [written, meaning]
    change _ = if values.isEmpty then _ else _
    split
    · rfl
    · rw [Written.meaning, Written.meaningAll_eq_map, List.map_map]
      rfl
  | array t => by
    rw [written, Written.meaning, meaning, meaning_written t]
    rfl
  | paren t => by rw [written, meaning, meaning_written t]
  | join op operands => by rw [written, Written.meaning, meaning, meaning_writtenAll operands]
  | object members => by
    rw [written, Written.meaning, meaning, meaning_writtenMembers members]
    rfl
  | record t => by
    rw [written, Written.meaning, meaning, ← meaning_written t]
    rfl
  | nullable t => by
    rw [written, Written.meaning, meaning, ← meaning_written t]
    rfl

theorem meaning_writtenAll : ∀ ts : List TypeExpr,
    Written.meaningAll R (writtenAll ts) = meaningAll R.ofTypes ts
  | [] => rfl
  | t :: rest => by
    rw [writtenAll, Written.meaningAll, meaningAll, meaning_written t, meaning_writtenAll rest]

theorem meaning_writtenMembers : ∀ ms : List (MemberHead × TypeExpr),
    Written.meaningMembers R (writtenMembers ms) =
      (meaningMembers R.ofTypes ms).map fun m => (m.1.text, m.2)
  | [] => rfl
  | (h, t) :: rest => by
    rw [writtenMembers, Written.meaningMembers, meaningMembers, List.map_cons,
      meaning_written t, meaning_writtenMembers rest]

end

end TypeExpr
end ApiTypes

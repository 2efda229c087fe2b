import ApiTypes.Proofs.Names
import Mathlib.Data.List.Forall2

/-!
# What types say

* `Written` : what the text of a type says: words, lists, objects, and what operators join. There
  are no parentheses in it, which only tell what is joined first;
* `TypeExpr.written` : what a type says;
* `Written.Same` : types that differ in how unions and intersections are nested, and in alternatives
  that come again;
* `Written.AllowsNull` : types with `null` among their alternatives; a further `null` adds nothing
  (`AllowsNull.same`).
-/

namespace ApiTypes

/-- What the text of a type says. A member of an object is what stands before its colon, and a
type. -/
inductive Written where
  | word (text : String)
  | array (element : Written)
  | join (op : Operator) (operands : List Written)
  | object (members : List (String × Written))
  deriving Repr, Inhabited

/-! ## Types -/

/-- What stands before the colon of a member. -/
def MemberHead.text (h : MemberHead) : String :=
  "\n  " ++ (h.comment.map fun c => c.render true ++ "  ").getD "" ++
    (if h.isReadOnly then "readonly " else "") ++
    Name.member h.key ++ (if h.isOptional then "?" else "")

theorem MemberHead.render_eq (h : MemberHead) : h.render = h.text ++ ": " := rfl

namespace TypeExpr

/-- What stands before the colon of an object type of any keys. -/
def anyKey : String := "[key: string]"

/-- The word for the values of any kind. -/
def anyWord : String := "any"

/-- The text for the values that a constant lists. -/
def valuesText (constant : String) : String :=
  "typeof " ++ constant ++ "[keyof typeof " ++ constant ++ "]"

mutual

/-- What a type says. -/
def written : TypeExpr → Written
  | builtin b => .word b.text
  | name n => .word n
  | literals values =>
    if values.isEmpty then .word Builtin.never.text
    else .join .or ((Enum.literals values).map .word)
  | array t => .array (written t)
  | paren t => written t
  | join op operands => .join op (writtenAll operands)
  | object members => .object (writtenMembers members)
  | record t => .object [(anyKey, written t)]
  | openRecord => .object [(anyKey, .word anyWord)]
  | emptyObject => .object []
  | nullable t => .join .or [written t, .word Builtin.null.text]
  | valuesOf constant => .word (valuesText constant)

/-- What some types say. -/
def writtenAll : List TypeExpr → List Written
  | [] => []
  | t :: rest => written t :: writtenAll rest

/-- What the members of an object type say. -/
def writtenMembers : List (MemberHead × TypeExpr) → List (String × Written)
  | [] => []
  | (h, t) :: rest => (h.text, written t) :: writtenMembers rest

end

theorem writtenAll_eq_map (ts : List TypeExpr) : writtenAll ts = ts.map written := by
  induction ts with
  | nil => rfl
  | cons t rest ih => rw [writtenAll, ih, List.map_cons]

theorem writtenMembers_eq_map (ms : List (MemberHead × TypeExpr)) :
    writtenMembers ms = ms.map fun m => (m.1.text, m.2.written) := by
  induction ms with
  | nil => rfl
  | cons m rest ih => rw [writtenMembers, ih, List.map_cons]

theorem written_join (op : Operator) (ts : List TypeExpr) :
    (join op ts).written = .join op (ts.map written) := by
  rw [written, writtenAll_eq_map]

theorem written_object (ms : List (MemberHead × TypeExpr)) :
    (object ms).written = .object (ms.map fun m => (m.1.text, m.2.written)) := by
  rw [written, writtenMembers_eq_map]

/-- Parentheses that a type needs say nothing themselves. -/
@[simp]
theorem written_guarded (operators : List Char) (t : TypeExpr) :
    (Resolve.guarded operators t).written = t.written := by
  unfold Resolve.guarded
  split
  · rw [written]
  · rfl

@[simp]
theorem written_operand (keyword : Keyword) (r : Resolved) :
    (Resolve.operand keyword r).written = r.type.written := by
  unfold Resolve.operand
  split
  · exact written_guarded _ _
  · rfl

theorem written_arrayOf (r : Resolved) :
    (Resolve.arrayOf r).type.written = .array r.type.written := by
  unfold Resolve.arrayOf Resolved.plain
  rw [written, written_guarded]

theorem written_joined (keyword : Keyword) (rs : List Resolved) :
    (Resolve.combine.joined keyword rs).type.written =
      .join keyword.operator (rs.map fun r => r.type.written) := by
  unfold Resolve.combine.joined Resolved.plain
  rw [written_join, List.map_map]
  exact congrArg (Written.join keyword.operator)
    (List.map_congr_left fun r _ => written_operand _ r)

end TypeExpr

namespace Written

mutual

/-- The words of a type. -/
def words : Written → List String
  | word text => [text]
  | array w => words w
  | join _ operands => wordsOfAll operands
  | object members => wordsOfMembers members

/-- The words of some types. -/
def wordsOfAll : List Written → List String
  | [] => []
  | w :: rest => words w ++ wordsOfAll rest

/-- The words of the members of an object. -/
def wordsOfMembers : List (String × Written) → List String
  | [] => []
  | (_, w) :: rest => words w ++ wordsOfMembers rest

end

theorem mem_wordsOfAll {n : String} {ws : List Written} :
    n ∈ wordsOfAll ws ↔ ∃ w ∈ ws, n ∈ w.words := by
  induction ws with
  | nil => simp [wordsOfAll]
  | cons w rest ih => simp [wordsOfAll, ih]

theorem mem_wordsOfMembers {n : String} {ms : List (String × Written)} :
    n ∈ wordsOfMembers ms ↔ ∃ m ∈ ms, n ∈ m.2.words := by
  induction ms with
  | nil => simp [wordsOfMembers]
  | cons m rest ih => simp [wordsOfMembers, ih]

/-! ## Types that are one -/

/-- Types that are one type. -/
inductive Same : Written → Written → Prop
  | refl (w : Written) : Same w w
  | symm {w v : Written} : Same w v → Same v w
  | trans {w v u : Written} : Same w v → Same v u → Same w u
  | array {w v : Written} : Same w v → Same (array w) (array v)
  | operand {w v : Written} (op : Operator) (before after : List Written) :
      Same w v → Same (join op (before ++ w :: after)) (join op (before ++ v :: after))
  | member {w v : Written} (head : String) (before after : List (String × Written)) :
      Same w v →
      Same (object (before ++ (head, w) :: after)) (object (before ++ (head, v) :: after))
  /-- One operand is joined with nothing. -/
  | single (op : Operator) (w : Written) : Same (join op [w]) w
  /-- Operands that are joined by the same operator are operands of the whole. -/
  | nested (op : Operator) (before inner after : List Written) :
      Same (join op (before ++ join op inner :: after)) (join op (before ++ inner ++ after))
  /-- An alternative that comes again adds nothing. -/
  | again (w : Written) (before between after : List Written) :
      Same (join .or (before ++ w :: between ++ w :: after))
        (join .or (before ++ w :: between ++ after))

namespace Same

instance : Trans Same Same Same := ⟨Same.trans⟩

/-- Operands may be changed one and all. -/
theorem join {ws vs : List Written} (h : List.Forall₂ Same ws vs) (op : Operator) :
    Same (.join op ws) (.join op vs) := by
  suffices hall : ∀ before, Same (.join op (before ++ ws)) (.join op (before ++ vs)) from hall []
  induction h with
  | nil => exact fun _ => .refl _
  | @cons w v ws vs hwv _ ih =>
    intro before
    refine (operand op before ws hwv).trans ?_
    simpa using ih (before ++ [v])

/-- So may the types of members. -/
theorem object {ms ns : List (String × Written)}
    (h : List.Forall₂ (fun m n => m.1 = n.1 ∧ Same m.2 n.2) ms ns) :
    Same (.object ms) (.object ns) := by
  suffices hall : ∀ before, Same (.object (before ++ ms)) (.object (before ++ ns)) from hall []
  induction h with
  | nil => exact fun _ => .refl _
  | @cons m n ms ns hmn _ ih =>
    intro before
    obtain ⟨head, w⟩ := m
    obtain ⟨head', v⟩ := n
    obtain rfl : head = head' := hmn.1
    refine (member head before ms hmn.2).trans ?_
    simpa using ih (before ++ [(head, v)])

/-- Groups of operands that are joined by one operator are joined by it all together. -/
theorem flatten (op : Operator) (groups : List (List Written)) :
    Same (.join op (groups.map (.join op))) (.join op groups.flatten) := by
  suffices hall : ∀ before, Same (.join op (before ++ groups.map (.join op)))
      (.join op (before ++ groups.flatten)) from hall []
  induction groups with
  | nil => exact fun _ => .refl _
  | cons group rest ih =>
    intro before
    refine (nested op before group (rest.map (.join op))).trans ?_
    simpa using ih (before ++ group)

/-- Types that are one have the same words. -/
theorem mem_words {w v : Written} (h : Same w v) (n : String) : n ∈ w.words ↔ n ∈ v.words := by
  induction h with
  | refl => rfl
  | symm _ ih => exact ih.symm
  | trans _ _ ihw ihv => exact ihw.trans ihv
  | array _ ih => simpa only [words] using ih
  | operand op before after _ ih =>
    simp only [words, mem_wordsOfAll, List.mem_append, List.mem_cons, or_and_right, exists_or,
      exists_eq_left, ih]
  | member head before after _ ih =>
    simp only [words, mem_wordsOfMembers, List.mem_append, List.mem_cons, or_and_right, exists_or,
      exists_eq_left, ih]
  | single op w => simp [words, wordsOfAll]
  | nested op before inner after =>
    simp only [words, mem_wordsOfAll, List.mem_append, List.mem_cons, or_and_right, exists_or,
      exists_eq_left, or_assoc]
  | again w before between after =>
    simp only [words, mem_wordsOfAll, List.mem_append, List.mem_cons, or_and_right, exists_or,
      exists_eq_left]
    grind

end Same

/-! ## Types that allow `null` -/

/-- The word for `null`. -/
def null : Written := word Builtin.null.text

/-- Types with `null` among their alternatives. -/
inductive AllowsNull : Written → Prop
  | null : AllowsNull null
  | single {w : Written} (op : Operator) : AllowsNull w → AllowsNull (join op [w])
  | alternative {w : Written} {ws : List Written} : w ∈ ws → AllowsNull w →
      AllowsNull (join .or ws)

/-- A further `null` adds nothing to a type that allows it. -/
theorem AllowsNull.same {w : Written} (h : AllowsNull w) : Same (join .or [w, Written.null]) w := by
  induction h with
  | null =>
    calc Same (join .or [Written.null, Written.null]) (join .or [Written.null]) :=
          .again Written.null [] [] []
      Same _ Written.null := .single _ _
  | @single w op _ ih =>
    calc Same (join .or [join op [w], Written.null]) (join .or [w, Written.null]) :=
          .operand .or [] [Written.null] (.single op w)
      Same _ w := ih
      Same _ (join op [w]) := (Same.single op w).symm
  | @alternative w ws hmem _ ih =>
    obtain ⟨before, after, rfl⟩ := List.append_of_mem hmem
    calc Same (join .or [join .or (before ++ w :: after), Written.null])
          (join .or (before ++ w :: after ++ [Written.null])) :=
          .nested .or [] (before ++ w :: after) [Written.null]
      Same _ (join .or (before ++ join .or [w, Written.null] :: (after ++ [Written.null]))) := by
        simpa using Same.operand .or before (after ++ [Written.null]) ih.symm
      Same _ (join .or (before ++ [w, Written.null] ++ (after ++ [Written.null]))) :=
        .nested .or before _ _
      Same _ (join .or (before ++ [w, Written.null] ++ after)) := by
        simpa using Same.again Written.null (before ++ [w]) after []
      Same _ (join .or (before ++ join .or [w, Written.null] :: after)) :=
        (Same.nested .or before _ _).symm
      Same _ (join .or (before ++ w :: after)) := Same.operand .or before after ih

end Written

/-- Types that say that they allow `null`. -/
def TypeExpr.AllowsNull (t : TypeExpr) : Prop := t.written.AllowsNull

namespace TypeExpr.AllowsNull

theorem null : AllowsNull (builtin .null) := Written.AllowsNull.null

theorem name : AllowsNull (name "null") := Written.AllowsNull.null

theorem nullable (t : TypeExpr) : AllowsNull (nullable t) :=
  .alternative (List.mem_cons_of_mem _ (List.mem_singleton_self _)) .null

theorem single {t : TypeExpr} (op : Operator) (h : AllowsNull t) : AllowsNull (join op [t]) := by
  rw [AllowsNull, written_join]
  exact Written.AllowsNull.single op h

theorem alternative {t : TypeExpr} {ts : List TypeExpr} (ht : t ∈ ts) (h : AllowsNull t) :
    AllowsNull (join .or ts) := by
  rw [AllowsNull, written_join]
  exact .alternative (List.mem_map_of_mem ht) h

end TypeExpr.AllowsNull
end ApiTypes

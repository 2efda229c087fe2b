import ApiTypes.Document.Basic
import ApiTypes.Fault
import ApiTypes.Name

/-!
# The forms that places need

A place in a document needs a value of some form. These readers give it or say what is wrong:

* `Value.orEmpty` : the value of a place that may be left out, the empty mapping if it is not given;
* `Form.mapping`, `Form.row`, `Form.key` : mappings, rows of values, and values that can be keys;
* `Form.holds` : whether a text is among the values of a row;
* `Form.pascal`, `Form.suffixed` : names made of values that are to be texts;
* `Form.sorted` : members in the order of their keys.
-/

namespace ApiTypes

def Value.orEmpty (v : Option Value) : Value :=
  match v with
  | some w => if w.isTrue then w else .map []
  | none => .map []

@[simp] theorem Value.orEmpty_map (ms : Members) : orEmpty (some (.map ms)) = .map ms := by
  cases ms <;> rfl

namespace Form

def fail {α : Type} (d : Defect) : Except Fault α := .error (.defect d)

def mapping : Value → Except Fault Members
  | .map ms => .ok ms
  | _ => fail .notMapping

theorem mapping_ok {v : Value} {ms : Members} : mapping v = .ok ms ↔ v = .map ms := by
  cases v <;> simp [mapping, fail]

/-- The members of a mapping that may be left out. -/
def optionalMapping (v : Option Value) : Except Fault Members := mapping (Value.orEmpty v)

/-- The values of a row: the items of a list, the keys of a mapping, the characters of a text. -/
def row : Value → Except Fault (List Value)
  | .list items => .ok items
  | .map ms => .ok (ms.map fun m => .atom m.1)
  | .atom (.text s) => .ok (s.toList.map fun c => .text (String.singleton c))
  | .atom _ => fail .notRow

/-- The values of a row that may be left out. -/
def optionalRow (v : Option Value) : Except Fault (List Value) := row (Value.orEmpty v)

def key : Value → Except Fault Atom
  | .atom a => .ok a
  | _ => fail .notKey

/-- Whether a text is among the values of a row; in a text, whether it occurs. -/
def holds (v : Value) (text : String) : Except Fault Bool :=
  match v with
  | .atom (.text s) => .ok (Text.contains s text)
  | .atom _ => fail .notRow
  | .list items => .ok (items.any fun w => w.text? = some text)
  | .map ms => .ok (Members.has ms text)

/-- A value that is to be a text. -/
def text : Value → Except Fault String
  | .atom (.text s) => .ok s
  | _ => fail .notText

theorem text_of_ok {v : Value} {s : String} (h : text v = .ok s) : v = .text s := by
  unfold text at h
  split at h
  · exact congrArg Value.text (Except.ok.inj h)
  · simp [fail] at h

/-- The name made of a value; what does not count as given makes an empty one. -/
def pascal (v : Value) : Except Fault String :=
  match v.text? with
  | some s => .ok (Name.pascal s)
  | none => if v.isTrue then fail .notText else .ok ""

def suffixed (name : String) (suffix : Value) : Except Fault String := do
  return name ++ (← text suffix)

/-! ## Order of keys -/

/-- The order of two keys of one kind. -/
def compareKeys? (a b : Atom) : Option Ordering :=
  match a, b with
  | .text s, .text t => some (compare s t)
  | .date y m d, .date y' m' d' => some ((compare y y').then ((compare m m').then (compare d d')))
  | .moment y m d c, .moment y' m' d' c' =>
    if c.offset.isSome = c'.offset.isSome then
      some (compare (Atom.instant y m d c (c.offset.getD 0))
        (Atom.instant y' m' d' c' (c'.offset.getD 0)))
    else none
  | .float .nan, b => if b.compareNumbers? (.int 0) |>.isSome then some .gt else none
  | a, .float .nan => if a.compareNumbers? (.int 0) |>.isSome then some .gt else none
  | a, b => a.compareNumbers? b

/-- Whether any two keys of a row can be compared. -/
def areComparable : List Atom → Bool
  | [] => true
  | a :: rest => rest.all (fun b => (compareKeys? a b).isSome) && areComparable rest

def sorted {α : Type} (keyOf : α → Atom) (row : List α) : Except Fault (List α) :=
  if areComparable (row.map keyOf) then
    .ok (row.mergeSort fun a b => compareKeys? (keyOf a) (keyOf b) != some .gt)
  else fail .notComparable

/-- Whether two values of a row can be compared: two lists can. -/
def canCompare : Value → Value → Bool
  | .atom a, .atom b => (compareKeys? a b).isSome
  | .list _, .list _ => true
  | _, _ => false

/-- Whether any two values of a row can be compared. -/
def canCompareAll : List Value → Bool
  | [] => true
  | v :: rest => rest.all (canCompare v) && canCompareAll rest

/-- The atoms of a row, which are to be comparable, in order. -/
def sortedRow (v : Value) : Except Fault (List Atom) := do
  let values ← row v
  if canCompareAll values then
    sorted id (values.filterMap fun w => match w with
      | .atom a => some a
      | _ => none)
  else fail .notComparable

end Form
end ApiTypes

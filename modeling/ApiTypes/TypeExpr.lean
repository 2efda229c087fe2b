import ApiTypes.Comment
import ApiTypes.Enum

/-!
# Type expressions

* `Builtin` : the types that need no declaration;
* `TypeExpr` : the types that are written for schemas;
* `TypeExpr.render` : the text of a type;
* `TypeExpr.isCompound`, `TypeExpr.isObjectLiteral`, `TypeExpr.endsInNull` : what the text tells
  about it;
* `isObjectLiteral` : texts that are one object type in braces, quotes and comments skipped.
-/

namespace ApiTypes

inductive Builtin where
  | string | number | boolean | null | blob | unknown | never
  deriving DecidableEq, Repr, Inhabited

def Builtin.text : Builtin → String
  | string => "string"
  | number => "number"
  | boolean => "boolean"
  | null => "null"
  | blob => "Blob"
  | unknown => "unknown"
  | never => "never"

/-- What joins types: all of them at once, or one of them. -/
inductive Operator where
  | and | or
  deriving DecidableEq, Repr, Inhabited

def Operator.text : Operator → String
  | and => " & "
  | or => " | "

/-- What stands before the type of a member of an object type. -/
structure MemberHead where
  comment : Option Comment
  isReadOnly : Bool
  key : String
  isOptional : Bool
  deriving DecidableEq, Repr, Inhabited

inductive TypeExpr where
  | builtin (b : Builtin)
  /-- A declared type. -/
  | name (n : String)
  /-- One of some values; of no value there is none. -/
  | literals (values : List Value)
  | array (element : TypeExpr)
  | paren (t : TypeExpr)
  | join (op : Operator) (operands : List TypeExpr)
  | object (members : List (MemberHead × TypeExpr))
  /-- Any keys, with values of one type. -/
  | record (values : TypeExpr)
  /-- Any keys and values. -/
  | openRecord
  | emptyObject
  | nullable (t : TypeExpr)
  /-- One of the values that a declared constant lists. -/
  | valuesOf (constant : String)
  deriving Repr, Inhabited

namespace MemberHead

def render (h : MemberHead) : String :=
  "\n  " ++ (h.comment.map fun c => c.render true ++ "  ").getD "" ++
    (if h.isReadOnly then "readonly " else "") ++
    Name.member h.key ++ (if h.isOptional then "?" else "") ++ ": "

end MemberHead

namespace TypeExpr

mutual

def render : TypeExpr → String
  | builtin b => b.text
  | name n => n
  | literals values =>
    if values.isEmpty then Builtin.never.text
    else Text.join Operator.or.text (Enum.literals values)
  | array element => render element ++ "[]"
  | paren t => "(" ++ render t ++ ")"
  | join op operands => Text.join op.text (renderAll operands)
  | object members => "\x7b" ++ renderMembers members ++ "\n\x7d"
  | record values => "\x7b[key: string]: " ++ render values ++ "\x7d"
  | openRecord => "\x7b [key: string]: any \x7d"
  | emptyObject => "\x7b\x7d"
  | nullable t => render t ++ " | null"
  | valuesOf constant => "typeof " ++ constant ++ "[keyof typeof " ++ constant ++ "]"

/-- The texts of some types. -/
def renderAll : List TypeExpr → List String
  | [] => []
  | t :: rest => render t :: renderAll rest

/-- The text of the members of an object type, each on lines of its own. -/
def renderMembers : List (MemberHead × TypeExpr) → String
  | [] => ""
  | (h, t) :: rest => h.render ++ render t ++ ";" ++ renderMembers rest

end

end TypeExpr

/-! ## What the text of a type tells -/

/-- Where a scan of a text stands: among code, between quotes, after a backslash there, or in a
comment. -/
inductive Scan where
  | code (depth : Nat)
  | quoted (depth : Nat)
  | escaped (depth : Nat)
  | comment (depth : Nat)
  deriving DecidableEq, Repr

/-- Whether the braces of the rest of a text close the first one only at its end. -/
def closesAtEnd : Scan → List Char → Bool
  | .code depth, [] => depth = 0
  | .quoted depth, [] => depth = 0
  | .escaped depth, [] => depth = 0
  | .comment _, [] => false
  | .escaped depth, _ :: rest => closesAtEnd (.quoted depth) rest
  | .quoted depth, c :: rest =>
    closesAtEnd (if c = '\\' then .escaped depth else if c = '\'' then .code depth
      else .quoted depth) rest
  | .comment depth, '*' :: '/' :: rest => closesAtEnd (.code depth) rest
  | .comment depth, _ :: rest => closesAtEnd (.comment depth) rest
  | .code depth, '/' :: '*' :: rest => closesAtEnd (.comment depth) rest
  | .code depth, c :: rest =>
    if c = '\'' then closesAtEnd (.quoted depth) rest
    else if c = '{' then closesAtEnd (.code (depth + 1)) rest
    else if c = '}' then
      if depth = 1 ∧ rest ≠ [] then false else closesAtEnd (.code (depth - 1)) rest
    else closesAtEnd (.code depth) rest

def isObjectLiteral (text : String) : Bool :=
  let cs := text.toList
  cs.head? = some '{' && cs.getLast? = some '}' && closesAtEnd (.code 0) cs

namespace TypeExpr

def isCompound (t : TypeExpr) : Bool := t.render.toList.any fun c => c = '{' || c = '&' || c = '|'

/-- Whether an operator occurs in a type. -/
def hasChar (t : TypeExpr) (c : Char) : Bool := Text.hasChar t.render c

def endsInNull (t : TypeExpr) : Bool := Text.endsWith t.render "| null"

def isObjectLiteral (t : TypeExpr) : Bool := ApiTypes.isObjectLiteral t.render

end TypeExpr
end ApiTypes

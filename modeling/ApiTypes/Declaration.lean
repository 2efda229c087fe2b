import ApiTypes.TypeExpr

/-!
# Declarations

* `Import` : a declared name that a declaration needs, and the document that declares it;
* `Model` : what a declaration says, as source text (`Model.render`);
* `Declaration` : a named model with its imports;
* `firstOfName` : declarations without those whose name has come before;
* `Declaration.merge` : declarations with those of one name put together.
-/

namespace ApiTypes

/-- A declared name that something needs. Without a document it is declared where it is needed. -/
structure Import where
  name : String
  document : Option String
  deriving DecidableEq, Repr, Inhabited

namespace Import

/-- A name declared beside what needs it. -/
def here (name : String) : Import := ⟨name, none⟩

end Import

/-- A part of the object of a merged enum: the entries of another one, or entries of its own. -/
inductive EnumPart where
  | spread (constant : String)
  | values (values : List Value)
  deriving Repr, Inhabited

def EnumPart.render : EnumPart → String
  | spread constant => "  ..." ++ constant ++ ",\n"
  | values vs => Enum.body vs

inductive Model where
  | interface (comment : Option Comment) (name : String) (type : TypeExpr)
  | synonym (comment : Option Comment) (name : String) (type : TypeExpr)
  /-- A type without members. -/
  | empty (comment : Option Comment) (name : String)
  /-- A type and an object that lists its values. -/
  | enum (comment : Option Comment) (name : String) (values : List Value)
  /-- An object that lists the values of several enums. -/
  | mergedEnum (name : String) (parts : List EnumPart)
  /-- Two models of one name. -/
  | both (first second : Model)
  deriving Repr, Inhabited

namespace Model

/-- The object that lists the values of an enum. -/
def constant (name body : String) : String :=
  "// eslint-disable-next-line @typescript-eslint/no-redeclare\n" ++
    "export const " ++ name ++ " = \x7b\n" ++ body ++ "\x7d as const;\n"

/-- A type that stands for one of the values of an enum, and the object that lists them. -/
def enumText (name : String) (values : List Value) : String :=
  "export type " ++ name ++ " = " ++ (TypeExpr.valuesOf name).render ++ ";\n\n\n" ++
    constant name (Enum.body values)

/-- The text of a model. -/
def render : Model → String
  | interface c name t =>
    Comment.textOf c false ++ "export interface " ++ name ++ " " ++ t.render ++ "\n"
  | synonym c name t =>
    Comment.textOf c false ++ "export type " ++ name ++ " = " ++ t.render ++ ";\n"
  | empty c name =>
    Comment.textOf c false ++ "// eslint-disable-next-line @typescript-eslint/ban-types\n" ++
      "export type " ++ name ++ " = \x7b\x7d;\n"
  | enum c name values => Comment.textOf c false ++ enumText name values
  | mergedEnum name parts => constant name (String.join (parts.map EnumPart.render))
  | both first second => first.render ++ "\n" ++ second.render

end Model

structure Declaration where
  name : String
  model : Model
  imports : List Import
  deriving Repr, Inhabited

/-- A row without the elements whose name has come before. -/
def firstOfName {α : Type} (name : α → String) : List α → List α
  | [] => []
  | a :: rest => a :: (firstOfName name rest).filter (name · ≠ name a)

namespace Declaration

/-- Two declarations of one name as one. -/
def join (d e : Declaration) : Declaration :=
  { d with model := .both d.model e.model, imports := d.imports ++ e.imports }

/-- Adds a declaration: to the one of its name if there is one, else at the end. -/
def insert : List Declaration → Declaration → List Declaration
  | [], e => [e]
  | d :: rest, e => if d.name = e.name then d.join e :: rest else d :: insert rest e

/-- Declarations with those of one name put together, at the place of the first. -/
def merge (ds : List Declaration) : List Declaration := ds.foldl insert []

end Declaration
end ApiTypes

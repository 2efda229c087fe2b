import ApiTypes.Document.Text
import ApiTypes.Text.Lines

/-!
# Doc comments

* `Comment` : what a schema or an operation says about itself: a description, a deprecation and a
  summary;
* `Comment.ofMembers?` : what a mapping says;
* `Comment.render` : the comment, either as a block or, inside an object type, on one line where it
  has one item;
* `Comment.guarded` : text that cannot end a comment.
-/

namespace ApiTypes

structure Comment where
  description : Option (List String)
  deprecated : Bool
  summary : Option String
  deriving DecidableEq, Repr, Inhabited

namespace Comment

/-- A text with each end-of-comment mark broken by a backslash. -/
def guardedChars : List Char → List Char
  | '*' :: '/' :: rest => '*' :: '\\' :: '/' :: guardedChars rest
  | c :: rest => c :: guardedChars rest
  | [] => []

def guarded (s : String) : String := String.ofList (guardedChars s.toList)

/-- The lines of a description: the items of a list, or the lines of any other value's text. -/
def descriptionLines : Value → List String
  | .list items => items.map fun v => guarded v.plain
  | v =>
    let lines := Text.lines v.plain
    if lines.isEmpty then [""] else lines.map guarded

/-- What counts as given. -/
def given (v : Option Value) : Option Value := v.filter Value.isTrue

/-- A comment of a description, a deprecation and a summary, if any of them is given. -/
def make? (description deprecated summary : Option Value) : Option Comment :=
  let c : Comment :=
    { description := (given description).map descriptionLines
      deprecated := (given deprecated).isSome
      summary := (given summary).map fun v => guarded v.plain }
  if c.description.isNone && !c.deprecated && c.summary.isNone then none else some c

def ofMembers? (ms : Members) : Option Comment :=
  make? (ms.field? "description") (ms.field? "deprecated") (ms.field? "summary")

/-- What a value says about itself: only mappings do. -/
def ofValue? (v : Value) : Option Comment := v.members?.bind ofMembers?

/-- The items of a comment, each as the lines it takes. -/
def entries (c : Comment) : List (List String) :=
  c.description.toList ++ (if c.deprecated then [["@deprecated"]] else []) ++
    (c.summary.map fun s => ["@summary " ++ s]).toList

/-- The comment with its line end. `inline` is for members of an object type: lines are indented,
and a single item stands on one line. -/
def render (c : Comment) (inline : Bool) : String :=
  let items := c.entries
  let oneLine := inline && items.length = 1
  let indent := if inline then "  " else ""
  let lineStart := "\n" ++ indent ++ " *"
  let item := fun lines =>
    (if oneLine then "" else lineStart) ++ " " ++ Text.join (lineStart ++ " ") lines
  "/**" ++ String.join (items.map item) ++ (if oneLine then " " else "\n " ++ indent) ++ "*/\n"

/-- The comment of a value, or nothing. -/
def textOf (c : Option Comment) (inline : Bool) : String := (c.map (·.render inline)).getD ""

end Comment
end ApiTypes

import ApiTypes.Document.Basic
import ApiTypes.Number.Shortest
import ApiTypes.Text.Quoted

/-!
# Values as text

* `Value.plain` : the text of a value where a text is asked for: a text is itself, dates and
  numbers are written out, and values with parts are shown with brackets;
* `Value.shown` : the text of a value inside such brackets, where texts have quotes.

Whole numbers are written out whatever their length. Where they are read, a numeral of too many
decimal digits makes a text one that cannot be read (`Json.maxDigits`, `Yaml.maxDigits`,
`Pointer.maxDigits`): this is part of what a document is. Where they are written, the same bound is
a guard of the system the program runs on, which can be lifted as its depth of calls can, and
neither is part of what a value looks like. No number that is read from decimal digits passes it.
-/

namespace ApiTypes

/-- A number with zeros in front, up to a width. -/
def padded (width n : Nat) : String :=
  let digits := Nat.toDigits 10 n
  String.ofList (List.replicate (width - digits.length) '0' ++ digits)

namespace Clock

/-- An offset as a sign, hours and minutes. -/
def offsetText (offset : Int) : String :=
  (if offset < 0 then "-" else "+") ++ padded 2 (offset.natAbs / 60) ++ ":" ++
    padded 2 (offset.natAbs % 60)

/-- Hours, minutes and seconds, parts of a second if there are any, and the offset. -/
def text (c : Clock) : String :=
  padded 2 c.hour ++ ":" ++ padded 2 c.minute ++ ":" ++ padded 2 c.second ++
    (if c.micro = 0 then "" else "." ++ padded 6 c.micro) ++
    (c.offset.map offsetText).getD ""

/-- The offset of a moment inside brackets, in days and seconds. -/
def offsetShown (offset : Int) : String :=
  if offset = 0 then "datetime.timezone.utc"
  else
    let days := offset / 1440
    let seconds := (offset % 1440) * 60
    let parts := (if days = 0 then [] else ["days=" ++ toString days]) ++
      (if seconds = 0 then [] else ["seconds=" ++ toString seconds])
    "datetime.timezone(datetime.timedelta(" ++ String.intercalate ", " parts ++ "))"

/-- The numbers of a moment inside brackets: trailing zero seconds are left out. -/
def shownParts (c : Clock) : List String :=
  let seconds :=
    if c.micro ≠ 0 then [c.second, c.micro] else if c.second ≠ 0 then [c.second] else []
  (c.hour :: c.minute :: seconds).map toString ++
    (c.offset.map fun o => "tzinfo=" ++ offsetShown o).toList

end Clock

namespace Atom

/-- The text of an atom inside brackets. -/
def shown : Atom → String
  | null => "None"
  | bool b => if b then "True" else "False"
  | int n => toString n
  | float x => x.text
  | text s => Text.shown s
  | date y m d => "datetime.date(" ++ String.intercalate ", " ([y, m, d].map toString) ++ ")"
  | moment y m d c =>
    "datetime.datetime(" ++ String.intercalate ", " ([y, m, d].map toString ++ c.shownParts) ++ ")"

/-- The text of a day. -/
def dayText (y m d : Nat) : String := padded 4 y ++ "-" ++ padded 2 m ++ "-" ++ padded 2 d

def plain : Atom → String
  | text s => s
  | date y m d => dayText y m d
  | moment y m d c => dayText y m d ++ " " ++ c.text
  | a => a.shown

end Atom

namespace Value

mutual

/-- The text of a value inside brackets. -/
def shown : Value → String
  | atom a => a.shown
  | list items => "[" ++ String.intercalate ", " (shownItems items) ++ "]"
  | map members => "\x7b" ++ String.intercalate ", " (shownMembers members) ++ "\x7d"

def shownItems : List Value → List String
  | [] => []
  | v :: rest => shown v :: shownItems rest

def shownMembers : List (Atom × Value) → List String
  | [] => []
  | (k, v) :: rest => (k.shown ++ ": " ++ shown v) :: shownMembers rest

end

def plain : Value → String
  | atom a => a.plain
  | v => v.shown

end Value
end ApiTypes

import ApiTypes.Text.Lines

/-!
# Paths

* `Path.normalize` : a path without empty, `.` and removable `..` segments;
* `Path.join`, `Path.directory`, `Path.base`, `Path.stem`, `Path.extension` : the parts of a path;
* `Path.absolute` : a normalized path taken from a working directory;
* `Path.relative` : the way from one directory to a path;
* `Path.tidy`, `Path.below` : paths with doubled and trailing slashes and `.` segments dropped, `..`
  kept, and one such path taken from another.

Two leading slashes are a root of their own; three or more are one.
-/

namespace ApiTypes.Path

/-- The segments of a path that are neither empty nor `.`. -/
def segments (cs : List Char) : List (List Char) :=
  (Text.cut '/' cs).filter fun s => s ≠ [] ∧ s ≠ ['.']

/-- The slashes that a path starts with: none, one or two. -/
def root : List Char → List Char
  | '/' :: '/' :: '/' :: _ => ['/']
  | '/' :: '/' :: _ => ['/', '/']
  | '/' :: _ => ['/']
  | _ => []

def isAbsolute (cs : List Char) : Bool := cs.head? = some '/'

def parent : List Char := ['.', '.']

/-- Segments after one more, in reverse order: `..` takes the last one away unless that is `..`
itself; where nothing is left it stays, except under a root. -/
def descend (rooted : Bool) (done : List (List Char)) (s : List Char) : List (List Char) :=
  if s ≠ parent then s :: done
  else match done with
    | [] => if rooted then [] else [parent]
    | last :: rest => if last = parent then s :: done else rest

/-- Segments separated by slashes. -/
def glue : List (List Char) → List Char
  | [] => []
  | [s] => s
  | s :: rest => s ++ '/' :: glue rest

/-- The segments of a path with every removable `..` removed. -/
def reduced (cs : List Char) : List (List Char) :=
  ((segments cs).foldl (descend (isAbsolute cs)) []).reverse

def normalizeChars (cs : List Char) : List Char :=
  let out := root cs ++ glue (reduced cs)
  if out.isEmpty then ['.'] else out

/-- A path without empty, `.` and removable `..` segments; the empty path is `.`. -/
def normalize (p : String) : String := String.ofList (normalizeChars p.toList)

def joinChars (a b : List Char) : List Char :=
  if isAbsolute b then b
  else if a.isEmpty ∨ a.getLast? = some '/' then a ++ b
  else a ++ '/' :: b

/-- A path taken from another: an absolute one stands for itself. -/
def join (a b : String) : String := String.ofList (joinChars a.toList b.toList)

/-- What follows the last slash. -/
def baseChars (cs : List Char) : List Char := (cs.reverse.takeWhile (· ≠ '/')).reverse

/-- What the last slash ends, without the slash unless there are slashes only. -/
def directoryChars (cs : List Char) : List Char :=
  let head := (cs.reverse.dropWhile (· ≠ '/')).reverse
  let trimmed := (head.reverse.dropWhile (· = '/')).reverse
  if trimmed.isEmpty then head else trimmed

def base (p : String) : String := String.ofList (baseChars p.toList)

def directory (p : String) : String := String.ofList (directoryChars p.toList)

/-- The last segment without its extension: what the last dot starts, unless only dots come before
it. -/
def stemChars (cs : List Char) : List Char :=
  let name := baseChars cs
  let before := (name.reverse.dropWhile (· ≠ '.')).drop 1 |>.reverse
  if before.all (· = '.') then name else before

def stem (p : String) : String := String.ofList (stemChars p.toList)

def absolute (cwd p : String) : String := normalize (join cwd p)

/-! ## The way from one directory to another path -/

/-- Two segment lists without their common start. -/
def dropCommon : List (List Char) → List (List Char) → List (List Char) × List (List Char)
  | a :: as, b :: bs => if a = b then dropCommon as bs else (a :: as, b :: bs)
  | as, bs => (as, bs)

/-- The way from a directory to a path, both taken from the same place: up from what is left of the
directory after the common start, then down. -/
def relativeChars (target start : List Char) : List Char :=
  let (ups, downs) := dropCommon (reduced start) (reduced target)
  let way := List.replicate ups.length parent ++ downs
  if way.isEmpty then ['.'] else glue way

def relative (target start : String) : String :=
  String.ofList (relativeChars target.toList start.toList)

/-! ## Paths as written -/

/-- A path with its `.` segments and doubled and trailing slashes dropped. -/
def tidyChars (cs : List Char) : List Char :=
  let out := root cs ++ glue (segments cs)
  if out.isEmpty then ['.'] else out

def tidy (p : String) : String := String.ofList (tidyChars p.toList)

def below (base p : String) : String := tidy (join base p)

/-- The last segment of a tidy path; the roots and `.` have none. -/
def name (p : String) : String := String.ofList ((segments p.toList).getLast?.getD [])

/-- The last dot of a name and what follows it, unless the dot is the first or the last
character. -/
def suffixOf (name : List Char) : List Char :=
  let after := name.reverse.takeWhile (· ≠ '.')
  let before := (name.reverse.dropWhile (· ≠ '.')).drop 1
  if before.isEmpty ∨ after.isEmpty then [] else '.' :: after.reverse

def suffix (p : String) : String := String.ofList (suffixOf (name p).toList)

/-- The directory of a tidy path; roots and `.` are their own. -/
def parentOf (p : String) : String :=
  let cs := p.toList
  let kept := (segments cs).dropLast
  let out := root cs ++ glue kept
  if out.isEmpty then "." else String.ofList out

end ApiTypes.Path

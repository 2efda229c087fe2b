import ApiTypes.Text.Digit
import ApiTypes.Text.Lines

/-!
# Arguments of a command

* `Word` : what an argument is, and `Word.ofArgument?` : what an argument that stands alone is;
* `Word.ofArguments?` : what the arguments of a command are;
* `Request` : what a command asks for, and `Request.ofArguments` : what arguments ask for, or why
  they ask for no run (`Refusal`).

A switch has a letter and a name; the name may be shortened as long as one switch is meant. Letters
without a value may be written together. A value follows its switch, in the same argument or as the
next one. After `--` all arguments are values. One value may belong to no switch: the entry
document.
-/

namespace ApiTypes.Command

/-! ## Switches -/

/-- A switch without a value. -/
inductive Flag where
  | help | verbose
  deriving DecidableEq, Repr

/-- A switch with a value. -/
inductive Setting where
  | output | config
  deriving DecidableEq, Repr

inductive Switch where
  | flag (f : Flag)
  | setting (s : Setting)
  deriving DecidableEq, Repr

/-- The switches, each with its letter and its name. -/
def switches : List (Char × List Char × Switch) :=
  [('h', "help".toList, .flag .help), ('o', "output".toList, .setting .output),
   ('c', "config".toList, .setting .config), ('v', "verbose".toList, .flag .verbose)]

def switchOfLetter? (c : Char) : Option Switch := (switches.find? (·.1 = c)).map (·.2.2)

/-- The switches whose name starts with a text. -/
def switchesOfName (start : List Char) : List Switch :=
  (switches.filter fun s => start.isPrefixOf s.2.1).map (·.2.2)

/-! ## Words -/

inductive Word where
  | value (s : String)
  /-- The mark after which all arguments are values. -/
  | separator
  /-- Flags, then perhaps a setting, with its value if that is in the same argument. What is left
  over may be the letter of no switch. -/
  | switches (flags : List Flag) (setting : Option (Setting × Option String)) (hasExcess : Bool)
  /-- A flag with a value. -/
  | broken
  deriving DecidableEq, Repr

namespace Word

/-- Whether a text after its minus is a number: digits, perhaps with a point before the last; a line
feed may follow. -/
def isNumber (cs : List Char) : Bool :=
  let cs := if cs.getLast? = some '\n' then cs.dropLast else cs
  let isDecimal := fun c => (Text.decimalValue? c).isSome
  match cs.dropWhile isDecimal with
  | [] => !cs.isEmpty
  | '.' :: rest => !rest.isEmpty && rest.all isDecimal
  | _ => false

/-- What an argument is that starts with a minus and names no switch: a negative number and a text
with a blank are values. -/
def ofOther (argument : List Char) : Word :=
  if isNumber (argument.drop 1) || argument.contains ' ' then .value (String.ofList argument)
  else .switches [] none true

/-- What an argument is whose name, after two minuses, may be short; `none` if it may mean several
switches. -/
def ofName? (argument name : List Char) (attached : Option String) : Option Word :=
  match switchesOfName name with
  | [] => some (ofOther argument)
  | [.setting s] => some (.switches [] (some (s, attached)) false)
  | [.flag f] => some (if attached.isSome then .broken else .switches [f] none false)
  | _ => none

/-- The value that follows the letter of a setting. -/
def attachedTo : List Char → Option String
  | [] => none
  | '=' :: cs => some (String.ofList cs)
  | cs => some (String.ofList cs)

/-- The switches of some letters, after flags that came before them. -/
def ofLetters (flags : List Flag) : List Char → Word
  | [] => .switches flags none false
  | c :: rest =>
    match switchOfLetter? c with
    | some (.setting s) => .switches flags (some (s, attachedTo rest)) false
    | some (.flag f) =>
      if rest.head? = some '=' ∨ rest.head? = some '-' then .broken
      else ofLetters (flags ++ [f]) rest
    | none => .switches flags none true

/-- What an argument is; `none` if it may mean several switches. -/
def ofArgument? (argument : String) : Option Word :=
  match argument.toList with
  | ['-', '-'] => some .separator
  | '-' :: '-' :: rest =>
    match Text.breakAt '=' rest with
    | some (name, attached) => ofName? argument.toList name (some (String.ofList attached))
    | none => ofName? argument.toList rest none
  | '-' :: c :: rest =>
    some (if (switchOfLetter? c).isSome then ofLetters [] (c :: rest)
      else ofOther argument.toList)
  | _ => some (.value argument)

/-- What arguments are; `none` if one may mean several switches. -/
def ofArguments? : List String → Option (List Word)
  | [] => some []
  | argument :: rest => do
    match ← ofArgument? argument with
    | .separator => return .separator :: rest.map .value
    | w => return w :: (← ofArguments? rest)

end Word

/-! ## Requests -/

structure Request where
  input : Option String
  output : Option String
  config : Option String
  deriving DecidableEq, Repr

/-- Why arguments ask for no run. -/
inductive Refusal where
  | help
  | misuse
  deriving DecidableEq, Repr

namespace Request

/-- What no arguments ask for. -/
def empty : Request := ⟨none, none, none⟩

def set (r : Request) (s : Setting) (value : String) : Request :=
  match s with
  | .output => { r with output := some value }
  | .config => { r with config := some value }

/-- What words ask for after those that made a request; `hasExcess` says whether some of them mean
nothing. The mark before values belongs to the value without a switch, before or after it. -/
def extend (r : Request) (hasExcess : Bool) : List Word → Except Refusal Request
  | [] => if hasExcess then .error .misuse else .ok r
  | .value s :: .separator :: rest =>
    if r.input.isSome then extend r true rest else extend { r with input := some s } hasExcess rest
  | .value s :: rest =>
    if r.input.isSome then extend r true rest else extend { r with input := some s } hasExcess rest
  | .separator :: rest => extend r (hasExcess || r.input.isSome) rest
  | .switches flags (some (s, none)) _ :: .value v :: rest =>
    if flags.contains .help then .error .help else extend (r.set s v) hasExcess rest
  | .switches _ (some (_, none)) _ :: _ => .error .misuse
  | .switches flags (some (s, some v)) _ :: rest =>
    if flags.contains .help then .error .help else extend (r.set s v) hasExcess rest
  | .switches flags none excess :: rest =>
    if flags.contains .help then .error .help else extend r (hasExcess || excess) rest
  | .broken :: _ => .error .misuse

/-- What arguments ask for. -/
def ofArguments (arguments : List String) : Except Refusal Request :=
  match Word.ofArguments? arguments with
  | some words => extend empty false words
  | none => .error .misuse

end Request
end ApiTypes.Command

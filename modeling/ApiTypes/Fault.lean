import ApiTypes.Text.Quoted

/-!
# What can go wrong

* `Unresolved` : a reference that leads nowhere, with the document that holds it, the reason, and
  the declaration being made (`Unresolved.within`);
* `Defect` : a part of a document that has not the form its place needs;
* `ConfigFault` : what a configuration can get wrong;
* `Fault` : all of these and the failures to read a document, with `Fault.message`.
-/

namespace ApiTypes

/-- Why a reference leads nowhere. -/
inductive Reason where
  | notLoaded (document : String)
  | noNode (pointer : String)
  | other (text : String)
  deriving DecidableEq, Repr

def Reason.text : Reason → String
  | notLoaded document => "document " ++ document ++ " is not loaded"
  | noNode pointer => "no node at #" ++ pointer
  | other text => text

structure Unresolved where
  ref : String
  document : String
  reason : Option Reason
  declaration : Option String
  deriving DecidableEq, Repr

namespace Unresolved

/-- The text that is there and not empty, between two others. -/
def around (before : String) (text : Option String) (after : String) : String :=
  match text with
  | some t => if t = "" then "" else before ++ t ++ after
  | none => ""

def message (u : Unresolved) : String :=
  "Unresolvable reference " ++ Text.shown u.ref ++ " in " ++ u.document ++
    around ": " (u.reason.map Reason.text) "" ++
    around " (while generating " u.declaration ")"

/-- Whether the declaration being made is named. -/
def isPlaced (u : Unresolved) : Bool := u.declaration.any (· ≠ "")

/-- The same failure with the declaration being made, unless one is named already. -/
def within (u : Unresolved) (declaration : String) : Unresolved :=
  if u.isPlaced then u else { u with declaration := some declaration }

end Unresolved

inductive Defect where
  | notMapping
  | notText
  /-- A value without parts is needed, as for a key. -/
  | notKey
  /-- A value with parts is needed. -/
  | notRow
  /-- Keys of one kind are needed, to sort them. -/
  | notComparable
  | notNumeral
  /-- An address with paired brackets is needed. -/
  | badAddress
  /-- A value whose parts have keys is needed, to take one of them. -/
  | notKeyed
  | missingMember
  /-- A number of a calendar or a numeral is out of its range. -/
  | badNumber
  /-- A number is too great for the kind it is made into. -/
  | tooGreat
  | emptyNumeral
  | emptyPath
  | nulInPath
  /-- A path has one half of a character that is written in two. -/
  | halfInPath
  | notUtf8
  | isDirectory
  | notDirectory
  /-- A new directory is needed where a file is. -/
  | fileExists
  | nameTooLong
  /-- A value holds itself. -/
  | endless
  /-- A value of a kind that is not told here. -/
  | untold
  deriving DecidableEq, Repr

inductive ConfigFault where
  /-- A setting must be a text that is not blank. -/
  | emptyText (label : String)
  | headerNotBool
  | suffixesNotMapping
  /-- The suffix of a component type, given as text, must be a text. -/
  | suffixNotText (component : String)
  | notFound (path : String)
  | unparsable
  | rootNotMapping
  deriving DecidableEq, Repr

def ConfigFault.message : ConfigFault → String
  | emptyText label => label ++ " must be a non-empty string."
  | headerNotBool => "header must be true or false."
  | suffixesNotMapping => "suffixes must be a mapping of component type to suffix."
  | suffixNotText component => "suffixes." ++ component ++ " must be a string."
  | notFound path => "Configuration file not found: " ++ path
  | unparsable => "Failed to parse configuration file"
  | rootNotMapping => "Configuration root must be a mapping."

inductive Fault where
  | unresolved (u : Unresolved)
  | unreadable (path : String)
  | unparsable (path : String)
  | rootNotMapping (path : String)
  | config (c : ConfigFault)
  | noInput
  /-- Only three words compose schemas. -/
  | unknownKeyword (word : String)
  /-- A pointer names something that is not there. -/
  | dangling (token : String)
  | defect (d : Defect)
  deriving DecidableEq, Repr

namespace Fault

/-- The text of a fault. Defects have none of their own. -/
def message : Fault → String
  | unresolved u => u.message
  | unreadable path => "Cannot read schema document " ++ path
  | unparsable path => "Failed to parse schema document " ++ path
  | rootNotMapping path => "Schema document root must be a mapping: " ++ path
  | config c => c.message
  | noInput => "An input document or a --config file is required."
  | unknownKeyword word => "Unknown composition keyword: " ++ word
  | dangling token => token
  | defect _ => ""

/-- Whether a run reports the fault and ends, rather than breaking off. -/
def isReported : Fault → Bool
  | unresolved _ | unreadable _ | unparsable _ | rootNotMapping _ | config _ | noInput => true
  | unknownKeyword _ | dangling _ | defect _ => false

/-- The same fault with the declaration being made, if it is a reference that leads nowhere. -/
def within (declaration : String) : Fault → Fault
  | unresolved u => unresolved (u.within declaration)
  | f => f

end Fault
end ApiTypes

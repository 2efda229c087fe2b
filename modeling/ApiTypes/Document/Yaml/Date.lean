import ApiTypes.Document.Yaml.Number

/-!
# Dates in YAML

* `Yaml.DateText` : the parts of a text that is written as a date, with or without a time;
* `Yaml.DateText.parse?` : these parts;
* `Yaml.isDate` : the plain texts that are dates: with two digits for month and day, or with a time;
* `Yaml.date` : the day or moment, if the calendar has it.
-/

namespace ApiTypes.Yaml

/-- The offset of a time from universal time. -/
structure OffsetText where
  negative : Bool
  hours : List Char
  minutes : List Char

/-- The parts of a time. -/
structure TimeText where
  hour : List Char
  minute : List Char
  second : List Char
  fraction : List Char
  offset : Option OffsetText

structure DateText where
  year : List Char
  month : List Char
  day : List Char
  time : Option TimeText

/-- A number of digits within bounds, and what follows them. -/
def digitsWithin (least most : Nat) (cs : List Char) : Option (List Char × List Char) :=
  let digits := (cs.takeWhile Char.isDigit).take most
  if least ≤ digits.length then some (digits, cs.drop digits.length) else none

/-- What follows a character. -/
def afterChar (c : Char) : List Char → Option (List Char)
  | x :: rest => if x = c then some rest else none
  | [] => none

def isGap (c : Char) : Bool := c = ' ' || c = '\t'

/-- An offset to the end of a text. -/
def offset? (cs : List Char) : Option OffsetText :=
  match cs with
  | ['Z'] => some ⟨false, ['0'], []⟩
  | sign :: rest =>
    if sign = '-' ∨ sign = '+' then do
      let (hours, rest) ← digitsWithin 1 2 rest
      match rest with
      | [] => return ⟨sign = '-', hours, []⟩
      | ':' :: rest =>
        let (minutes, rest) ← digitsWithin 2 2 rest
        if rest.isEmpty then return ⟨sign = '-', hours, minutes⟩ else none
      | _ => none
    else none
  | [] => none

/-- A time to the end of a text. -/
def time? (cs : List Char) : Option TimeText := do
  let (hour, cs) ← digitsWithin 1 2 cs
  let (minute, cs) ← digitsWithin 2 2 (← afterChar ':' cs)
  let (second, cs) ← digitsWithin 2 2 (← afterChar ':' cs)
  let (fraction, cs) := match cs with
    | '.' :: rest => (rest.takeWhile Char.isDigit, rest.dropWhile Char.isDigit)
    | _ => ([], cs)
  if cs.isEmpty then return ⟨hour, minute, second, fraction, none⟩
  else return ⟨hour, minute, second, fraction, some (← offset? (cs.dropWhile isGap))⟩

/-- What follows the mark between a day and a time. -/
def afterDay : List Char → Option (List Char)
  | 'T' :: rest | 't' :: rest => some rest
  | c :: rest => if isGap c then some (rest.dropWhile isGap) else none
  | [] => none

namespace DateText

def parse? (cs : List Char) : Option DateText := do
  let (year, cs) ← digitsWithin 4 4 cs
  let (month, cs) ← digitsWithin 1 2 (← afterChar '-' cs)
  let (day, cs) ← digitsWithin 1 2 (← afterChar '-' cs)
  if cs.isEmpty then return ⟨year, month, day, none⟩
  else return ⟨year, month, day, some (← time? (← afterDay cs))⟩

end DateText

def isDate (cs : List Char) : Bool :=
  match DateText.parse? cs with
  | some d => d.time.isSome || (d.month.length = 2 && d.day.length = 2)
  | none => false

/-! ## Values -/

/-- The number that ASCII digits write. -/
def natOf (digits : List Char) : Nat :=
  digits.foldl (fun n c => 10 * n + (c.toNat - '0'.toNat)) 0

/-- The days of a month. -/
def daysIn (year month : Nat) : Nat :=
  let leap := year % 4 = 0 ∧ (year % 100 ≠ 0 ∨ year % 400 = 0)
  match month with
  | 2 => if leap then 29 else 28
  | 4 | 6 | 9 | 11 => 30
  | _ => 31

/-- Whether the calendar has a day. -/
def isDay (year month day : Nat) : Bool :=
  1 ≤ year && 1 ≤ month && month ≤ 12 && 1 ≤ day && day ≤ daysIn year month

/-- The millionths of a second that decimals write; further decimals are dropped. -/
def microOf (decimals : List Char) : Nat :=
  let kept := decimals.take 6
  natOf (kept ++ List.replicate (6 - kept.length) '0')

/-- An offset in minutes; it is to be less than a day. -/
def offsetOf (o : OffsetText) : Except Failure Int :=
  let minutes := 60 * natOf o.hours + natOf o.minutes
  if 1440 ≤ minutes then .error .badNumber
  else .ok (if o.negative then -minutes else minutes)

/-- The time that its parts write, if a day has it. -/
def clockOf (t : TimeText) : Except Failure Clock := do
  let offset ← t.offset.mapM offsetOf
  let c : Clock := ⟨natOf t.hour, natOf t.minute, natOf t.second, microOf t.fraction, offset⟩
  if c.hour < 24 && c.minute < 60 && c.second < 60 then return c else .error .badNumber

/-- A text without a line feed at its end. -/
def withoutLastBreak (cs : List Char) : List Char :=
  if cs.getLast? = some '\n' then cs.dropLast else cs

/-- The day or moment of a text, which may end with one line feed. -/
def date (cs : List Char) : Except Failure Atom :=
  match DateText.parse? (withoutLastBreak cs) with
  | none => .error .notDate
  | some d => do
    let (year, month, day) := (natOf d.year, natOf d.month, natOf d.day)
    match d.time with
    | none => if isDay year month day then return .date year month day else .error .badNumber
    | some t =>
      let c ← clockOf t
      if isDay year month day then return .moment year month day c else .error .badNumber

end ApiTypes.Yaml

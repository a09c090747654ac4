import CommittedChoice.Number.Numeral
import CommittedChoice.Value

/-!
# Bare words

What a word without quotes stands for in a configuration file: nothing, a truth value, a number, a moment, or itself.

- `integer?`: digits, in base ten or with the mark of another base, and nothing between them;
- `float?`: digits with a point or an exponent, and the words for infinity and for not a number;
- `moment?`: a day, or a day with a time; it is kept as its text in universal time;
- `value`: all of these, in this order.
-/

namespace CommittedChoice.Config.Scalar

/-! ## Numbers -/

/-- An integer without its sign. -/
def magnitude? (cs : List Char) : Option Nat :=
  match cs with
  | '0' :: 'b' :: ds => Numeral.inBase? 2 ds
  | '0' :: 'o' :: ds => Numeral.inBase? 8 ds
  | '0' :: 'x' :: ds => Numeral.inBase? 16 ds
  | ds => Numeral.inBase? 10 ds

/-- An integer. -/
def integer? (cs : List Char) : Option Number :=
  let (negative, rest) := Numeral.sign cs
  (magnitude? rest).map fun n => .ofInt (if negative then -(n : Int) else n)

/-- Whether a numeral may start like this: with a digit, or, if it has no sign, with a point. -/
def startsNumeral (signed : Bool) : List Char → Bool
  | '.' :: _ => !signed
  | c :: _ => c.isDigit
  | [] => false

/-- The words for infinity. -/
def infinityWords : List String := [".inf", ".Inf", ".INF"]

/-- The words for not a number. -/
def nanWords : List String := [".nan", ".NaN", ".NAN"]

/-- A number with a point or an exponent. -/
def float? (cs : List Char) : Option Number :=
  let (negative, body) := Numeral.sign cs
  if infinityWords.contains (String.ofList body) then some (.infinity negative)
  else if nanWords.contains (String.ofList cs) then some Number.nan
  else if startsNumeral (body.length ≠ cs.length) body then
    match Numeral.decimal? negative body with
    | some (n, []) => some n
    | _ => none
  else none

/-! ## Moments -/

/-- A moment: milliseconds since the start of 1970 in universal time. -/
abbrev Moment := Int

/-- Days from the start of 1970 to the first day of a month; months are counted from 0 and may be out of range. -/
def monthStart (year month : Int) : Int :=
  let y := year + month.fdiv 12
  let m := month.fmod 12
  -- years start in March here, so that the day that is sometimes missing comes last
  let y' := if m < 2 then y - 1 else y
  let m' := (m + 10).fmod 12
  365 * y' + y'.fdiv 4 - y'.fdiv 100 + y'.fdiv 400 + (153 * m' + 2).fdiv 5 - 719468

/-- The moment of a day and a time; a year of two digits is one of the twentieth century. -/
def moment (year month day hour minute second milli : Int) : Moment :=
  let year := if 0 ≤ year ∧ year ≤ 99 then 1900 + year else year
  let days := monthStart year (month - 1) + day - 1
  (((days * 24 + hour) * 60 + minute) * 60 + second) * 1000 + milli

/-- Year, month and day of a day counted from the start of 1970. -/
def civil (days : Int) : Int × Int × Int :=
  let z := days + 719468
  let era := z.fdiv 146097
  let doe := z.fmod 146097
  let yoe := (doe - doe.fdiv 1460 + doe.fdiv 36524 - doe.fdiv 146096).fdiv 365
  let doy := doe - (365 * yoe + yoe.fdiv 4 - yoe.fdiv 100)
  let mp := (5 * doy + 2).fdiv 153
  let month := if mp < 10 then mp + 3 else mp - 9
  (yoe + era * 400 + (if month ≤ 2 then 1 else 0), month, doy - (153 * mp + 2).fdiv 5 + 1)

/-- A number with zeros in front, up to a width. -/
def padded (width : Nat) (n : Int) : String :=
  let ds := Nat.toDigits 10 n.natAbs
  String.ofList (List.replicate (width - ds.length) '0' ++ ds)

/-- The text of a moment. -/
def Moment.text (t : Moment) : String :=
  let (year, month, day) := civil (t.fdiv 86400000)
  let ms := t.fmod 86400000
  padded 4 year ++ "-" ++ padded 2 month ++ "-" ++ padded 2 day ++ "T" ++ padded 2 (ms / 3600000) ++ ":" ++
    padded 2 (ms / 60000 % 60) ++ ":" ++ padded 2 (ms / 1000 % 60) ++ "." ++ padded 3 (ms % 1000) ++ "Z"

/-- The days of the week, from the first day of 1970 on. -/
def dayNames : List String := ["Thu", "Fri", "Sat", "Sun", "Mon", "Tue", "Wed"]

/-- The months. -/
def monthNames : List String :=
  ["Jan", "Feb", "Mar", "Apr", "May", "Jun", "Jul", "Aug", "Sep", "Oct", "Nov", "Dec"]

/-- The long text of a moment, which names the day of the week and the month. -/
def Moment.longText (t : Moment) : String :=
  let days := t.fdiv 86400000
  let (year, month, day) := civil days
  let ms := t.fmod 86400000
  dayNames.getD (days.fmod 7).toNat "" ++ " " ++ monthNames.getD (month - 1).toNat "" ++ " " ++ padded 2 day ++ " " ++
    padded 4 year ++ " " ++ padded 2 (ms / 3600000) ++ ":" ++ padded 2 (ms / 60000 % 60) ++ ":" ++
    padded 2 (ms / 1000 % 60) ++ " GMT+0000 (Coordinated Universal Time)"

/-- Between `least` and `most` digits. -/
def field? (least most : Nat) (cs : List Char) : Option (Int × List Char) :=
  let ds := (cs.takeWhile Char.isDigit).take most
  if ds.length < least then none else some (((Numeral.digits 0 0 ds).1 : Nat), cs.drop ds.length)

/-- A given character. -/
def mark? (c : Char) : List Char → Option (List Char)
  | d :: cs => if c = d then some cs else none
  | [] => none

/-- Whether a character is a space or a tab. -/
def isGap (c : Char) : Bool := c = ' ' || c = '\t'

/-- The fraction of a second in milliseconds, and the rest. -/
def fraction : List Char → Int × List Char
  | '.' :: cs =>
    let ds := cs.takeWhile Char.isDigit
    (((Numeral.digits 0 0 ((ds.take 3) ++ List.replicate (3 - ds.length) '0')).1 : Nat), cs.drop ds.length)
  | cs => (0, cs)

/-- How far the time is ahead of universal time, in milliseconds. The text ends here. -/
def zone? (cs : List Char) : Option Int :=
  match cs.dropWhile isGap with
  | [] => if cs.isEmpty then some 0 else none
  | ['Z'] => some 0
  | c :: cs =>
    if c = '+' ∨ c = '-' then do
      let (hour, cs) ← field? 1 2 cs
      let minute ← match cs with
        | [] => some 0
        | ':' :: cs => do
          let (minute, rest) ← field? 2 2 cs
          if rest.isEmpty then some minute else none
        | _ => none
      let ahead := (hour * 60 + minute) * 60000
      return if c = '-' then -ahead else ahead
    else none

/-- A day: four, two and two digits. -/
def day? (cs : List Char) : Option Moment := do
  let (year, cs) ← field? 4 4 cs
  let (month, cs) ← field? 2 2 (← mark? '-' cs)
  let (day, cs) ← field? 2 2 (← mark? '-' cs)
  if cs.isEmpty then some (moment year month day 0 0 0 0) else none

/-- A day with a time. -/
def time? (cs : List Char) : Option Moment := do
  let (year, cs) ← field? 4 4 cs
  let (month, cs) ← field? 1 2 (← mark? '-' cs)
  let (day, cs) ← field? 1 2 (← mark? '-' cs)
  let cs ← match cs with
    | c :: rest =>
      if c = 'T' ∨ c = 't' then some rest else if isGap c then some (rest.dropWhile isGap) else none
    | [] => none
  let (hour, cs) ← field? 1 2 cs
  let (minute, cs) ← field? 2 2 (← mark? ':' cs)
  let (second, cs) ← field? 2 2 (← mark? ':' cs)
  let (milli, cs) := fraction cs
  return moment year month day hour minute second milli - (← zone? cs)

/-- A day, or a day with a time. -/
def moment? (cs : List Char) : Option Moment := (day? cs).or (time? cs)

/-! ## Words -/

/-- What a bare word stands for. -/
def value (s : String) : Value :=
  let cs := s.toList
  if ["~", "null", "Null", "NULL"].contains s then .null
  else if ["true", "True", "TRUE"].contains s then .bool true
  else if ["false", "False", "FALSE"].contains s then .bool false
  else
    match (integer? cs).or (float? cs), moment? cs with
    | some n, _ => .number n
    | none, some t => .text t.text
    | none, none => .text s

end CommittedChoice.Config.Scalar

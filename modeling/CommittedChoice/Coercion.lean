import CommittedChoice.Fault
import CommittedChoice.Number.Numeral
import CommittedChoice.Value

/-!
# Values where a text or a number is needed

- `asText`: the plain text of a value. A symbol inside an array has none, and a record can be without one too;
- `simple`: a value as it takes part in comparisons and sums, where compound values count as their plain texts;
- `asNumber`: the number that a value counts as.
-/

namespace CommittedChoice.Value

/-- The plain text of a symbol. -/
def symbolText (name : String) : String := "Symbol(" ++ name ++ ")"

/-- The plain text of the built-in function, and what stands in for that of any other. -/
def functionText : String := "function max() \x7b [native code] \x7d"

/-- The plain text of a record that says nothing of it. -/
def recordText : String := "[object Object]"

/-- What a function of a record answers if it is called without arguments. -/
def ownAnswer : Number := Number.infinity true

/-- What a record says of itself under a name: a function of its own, something else of its own, or nothing. -/
inductive Saying where
  | function
  | other
  | nothing

/-- What a record says of itself under a name. -/
def saying (fields : List (String × Value)) (name : String) : Saying :=
  match fields.lookup name with
  | some (.function _) => .function
  | some _ => .other
  | none => .nothing

/-- A record that neither of its two functions turns into something simple. -/
def notSimple : Fault := .mistyped "Cannot convert object to primitive value"

/-- The plain text of a record. -/
def recordAsText (fields : List (String × Value)) : Except Fault String :=
  match saying fields "toString", saying fields "valueOf" with
  | .nothing, _ => .ok recordText
  | .function, _ => .ok ownAnswer.text
  | .other, .function => .ok ownAnswer.text
  | .other, _ => .error notSimple

mutual

/-- The plain text of a value. -/
def asText : Value → Except Fault String
  | .absent => .ok "undefined"
  | .null => .ok "null"
  | .bool b => .ok (if b then "true" else "false")
  | .number n => .ok n.text
  | .bigint i => .ok (Number.intText i)
  | .text s => .ok s
  | .symbol _ name => .ok (symbolText name)
  | .array _ xs => (elementTexts xs).map (String.intercalate ",")
  | .function _ => .ok functionText
  | .record _ fields => recordAsText fields
  | .knot | .mute | .list _ | .step _ => .ok recordText

/-- The plain texts of the elements of an array, in which nothing is empty. -/
def elementTexts : List Value → Except Fault (List String)
  | [] => .ok []
  | x :: xs =>
    match x with
    | .absent | .null => (elementTexts xs).map ("" :: ·)
    | .symbol _ _ => .error (.mistyped "Cannot convert a Symbol value to a string")
    | x =>
      match asText x with
      | .error e => .error e
      | .ok s => (elementTexts xs).map (s :: ·)

end

/-- A value as it takes part in comparisons and sums. -/
def simple : Value → Except Fault Value
  | .record _ fields =>
    match saying fields "valueOf", saying fields "toString" with
    | .function, _ => .ok (.number ownAnswer)
    | _, .function => .ok (.number ownAnswer)
    | _, .nothing => .ok (.text recordText)
    | _, .other => .error notSimple
  | .array id xs => (asText (.array id xs)).map .text
  | .function _ => .ok (.text functionText)
  | .knot | .mute | .list _ | .step _ => .ok (.text recordText)
  | v => .ok v

/-- The number that a value counts as. -/
def asNumber (v : Value) : Except Fault Number :=
  (simple v).bind fun
    | .number n => .ok n
    | .bool b => .ok (.whole (if b then 1 else 0))
    | .null => .ok (.whole 0)
    | .text s => .ok (Numeral.read s)
    | .bigint _ => .error (.mistyped "Cannot convert a BigInt value to a number")
    | .symbol _ _ => .error (.mistyped "Cannot convert a Symbol value to a number")
    | _ => .ok Number.nan

end CommittedChoice.Value

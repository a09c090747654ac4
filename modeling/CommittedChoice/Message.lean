import CommittedChoice.Coercion
import CommittedChoice.Json.Writer
import CommittedChoice.Text.Basic

/-!
# Failure messages

The texts that every engine shares, so that one parser fails with one message whichever engine runs it.

- `indent`: every line moved right;
- `token`: a token the way messages show it;
- `choiceReport`: the report of a labelled choice whose alternatives all failed, each label on a line of its own and
  the message of its alternative indented below it.

A message that would be longer than texts can be is a fault. The functions ending in `Text` say what the message is; the
others compare its length with the bound first.
-/

namespace CommittedChoice.Message

/-- There is no token left. -/
def noTokenLeft : String := "unexpected end of input"

/-- There is a token left. -/
def tokensLeft : String := "expected end of input"

/-- No alternative of a choice matched. -/
def nothingMatched : String := "failed to parse any of the possible choices"

/-- An item of a sequence matched nothing. -/
def emptyItem : String := "item consumed no input"

/-! ## Indentation -/

/-- The lines of a text. -/
def lines : List Char → List (List Char)
  | [] => [[]]
  | c :: cs =>
    if c = '\n' then [] :: lines cs
    else
      match lines cs with
      | [] => [[c]]
      | l :: ls => (c :: l) :: ls

/-- A text of blanks. -/
def blanks (width : Nat) : String := "".pushn ' ' width

/-- Puts `width` blanks before every line. -/
def indentText (width : Nat) (text : String) : String :=
  String.intercalate "\n" ((lines text.toList).map fun l => blanks width ++ String.ofList l)

/-- The units of a text of so many line breaks and units once it is indented. -/
def indentUnits (width breaks units : Nat) : Nat := (breaks + 1) * width + units

/-- Whether a number of units is no more than a text can have. -/
def bounded {α : Type} (units : Nat) (a : Unit → α) : Except Fault α :=
  if units ≤ Text.longest then .ok (a ()) else .error .tooLong

/-- Puts `width` blanks before every line. -/
def indent (width : Nat) (text : String) : Except Fault String :=
  bounded (indentUnits width (Text.breaks text) (Text.units text)) fun _ => indentText width text

/-- How many blanks a number asks for: its integral part, which is neither negative nor infinite. -/
def blanks? : Number → Except Fault Nat
  | .whole i => if i < 0 then .error (.count (.whole i)) else .ok i.toNat
  | .other f =>
    if f.isNaN then .ok 0
    else if f.isInf || f ≤ -1.0 then .error (.count (.other f))
    else if f < 0.0 then .ok 0
    else .ok f.floor.toUInt64.toNat

/-- `indent` for a width that may be no number of blanks. -/
def indentBy (width : Number) (text : String) : Except Fault String := (blanks? width).bind fun n => indent n text

/-- `headline`, and below it the indented `message`. -/
def underText (headline : String) (width : Nat) (message : String) : String :=
  headline ++ ":\n" ++ indentText width message

/-- The units of `underText`. -/
def underUnits (headline : String) (width : Nat) (message : String) : Nat :=
  Text.units headline + 2 + indentUnits width (Text.breaks message) (Text.units message)

/-- `headline`, and below it the indented `message`. -/
def under (headline : String) (width : Nat) (message : String) : Except Fault String :=
  bounded (underUnits headline width message) fun _ => underText headline width message

/-! ## Tokens -/

/-- A token the way messages show it. -/
def token : Value → Except Fault String
  | .text s => .ok (Json.quoted s)
  | v =>
    match Json.written? v with
    | .ok (some s) => .ok s
    | _ => v.asText

/-- A token did not satisfy the predicate. -/
def unexpected (t : Value) : Except Fault String := (token t).map ("satisfy: unexpected token " ++ ·)

/-! ## Choices -/

/-- The part of a report that lists the alternatives, before it is indented. -/
def listedText (width : Nat) (failures : List (String × String)) : String :=
  String.intercalate "\n" (failures.map fun f => underText f.1 width f.2)

/-- The report of a choice of at least one alternative, all of which failed. -/
def choiceText (width : Nat) (failures : List (String × String)) : String :=
  underText nothingMatched width (listedText width failures)

/-- The line breaks and the units of `listedText`, for at least one failure. -/
def listedSize (width : Nat) : List (String × String) → Nat × Nat
  | [] => (0, 0)
  | f :: fs =>
    let breaks := Text.breaks f.1 + 1 + Text.breaks f.2
    let units := underUnits f.1 width f.2
    match fs with
    | [] => (breaks, units)
    | fs =>
      let more := listedSize width fs
      (breaks + 1 + more.1, units + 1 + more.2)

/-- The report of a choice whose alternatives all failed. -/
def choiceReport (width : Nat) (failures : List (String × String)) : Except Fault String :=
  if failures.isEmpty then .ok nothingMatched
  else
    let size := listedSize width failures
    bounded (Text.units nothingMatched + 2 + indentUnits width size.1 size.2) fun _ => choiceText width failures

end CommittedChoice.Message

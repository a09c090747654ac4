import CommittedChoice.Number.Numeral
import CommittedChoice.Value

/-!
# Written form of values

- `quoted`: a text between double quotes, with the escapes that the format asks for;
- `written?`: the compact written form of a value. Some values have none (`none`), and some cannot be written at all
  (`Refusal`). In a record a field without a written form is left out, in an array it is written `null`. A record with
  a function named `toJSON` is written as what that function makes of the place where the record stands.
-/

namespace CommittedChoice.Json

/-- The hexadecimal digit of `n < 16`. -/
def hexDigit (n : Nat) : Char := if n < 10 then Char.ofNat (48 + n) else Char.ofNat (87 + n)

/-- How one character stands between quotes. -/
def escape (c : Char) : List Char :=
  if c = '"' then ['\\', '"']
  else if c = '\\' then ['\\', '\\']
  else if c = '\x08' then ['\\', 'b']
  else if c = '\x0c' then ['\\', 'f']
  else if c = '\n' then ['\\', 'n']
  else if c = '\r' then ['\\', 'r']
  else if c = '\t' then ['\\', 't']
  else if c.toNat < 32 then ['\\', 'u', '0', '0', hexDigit (c.toNat / 16), hexDigit (c.toNat % 16)]
  else [c]

/-- The text between double quotes. -/
def quoted (s : String) : String :=
  s.foldl (fun out c => (escape c).foldl String.push out) "\"" ++ "\""

/-- Why a value cannot be written. -/
inductive Refusal where
  | bigint
  | knot

/-- Wraps the parts of an array or a record, separated by commas. -/
def enclose (opening closing : String) (parts : List String) : String :=
  opening ++ String.intercalate "," parts ++ closing

/-- The number in its written form; one that is not finite has none but `null`. -/
def numberText (n : Number) : String := if n.isFinite then n.text else "null"

/-- Whether a record says itself how it is written, by a built-in function. -/
def saysItself (fields : List (String × Value)) : Bool :=
  match fields.lookup "toJSON" with
  | some (.function .maximum) => true
  | _ => false

mutual

/-- The compact written form of a value that stands under `key`, if it has one. -/
def writtenAt? (key : String) : Value → Except Refusal (Option String)
  | .null => .ok (some "null")
  | .bool b => .ok (some (if b then "true" else "false"))
  | .number n => .ok (some (numberText n))
  | .text s => .ok (some (quoted s))
  | .bigint _ => .error .bigint
  | .knot => .error .knot
  | .array _ xs => (elements 0 xs).map fun parts => some (enclose "[" "]" parts)
  | .record _ fields =>
    if saysItself fields then .ok (some (numberText (Numeral.read key)))
    else (members fields).map fun parts => some (enclose "\x7b" "\x7d" parts)
  | .absent | .symbol _ _ | .mute | .function _ => .ok none
  | .list _ | .step _ => .ok (some "\x7b\x7d")

/-- The written elements of an array from position `i` on. -/
def elements (i : Nat) : List Value → Except Refusal (List String)
  | [] => .ok []
  | x :: xs =>
    match writtenAt? (Number.intText i) x with
    | .error e => .error e
    | .ok s => (elements (i + 1) xs).map ((s.getD "null") :: ·)

/-- The written fields of a record, without those that have no written form. -/
def members : List (String × Value) → Except Refusal (List String)
  | [] => .ok []
  | (key, x) :: fields =>
    match writtenAt? key x with
    | .error e => .error e
    | .ok none => members fields
    | .ok (some s) => (members fields).map ((quoted key ++ ":" ++ s) :: ·)

end

/-- The compact written form of a value that stands alone. -/
def written? (v : Value) : Except Refusal (Option String) := writtenAt? "" v

/-- The written form of a value that has one, `null` otherwise. -/
def write (v : Value) : String :=
  match written? v with
  | .ok (some s) => s
  | _ => "null"

end CommittedChoice.Json

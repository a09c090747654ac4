import CommittedChoice.Fields
import CommittedChoice.Number.Numeral

/-!
# Reading written values

A reader over the list of characters that are left. Every step hands back a rest that is no longer than what it was
given, and what a value is made of is bounded by the length of the text, which is the fuel of `value?`.

The compound values that are read have no identity of their own yet.
-/

namespace CommittedChoice.Json

/-- Blank characters between the parts of a written value. -/
def isBlank (c : Char) : Bool := c = ' ' || c = '\n' || c = '\r' || c = '\t'

/-- Drops blanks. -/
def skip : List Char → List Char
  | c :: cs => if isBlank c then skip cs else c :: cs
  | [] => []

/-- Four hexadecimal digits. -/
def unit? : List Char → Option (Nat × List Char)
  | a :: b :: c :: d :: cs => do
    let a ← Numeral.digitValue? 16 a
    let b ← Numeral.digitValue? 16 b
    let c ← Numeral.digitValue? 16 c
    let d ← Numeral.digitValue? 16 d
    return (((a * 16 + b) * 16 + c) * 16 + d, cs)
  | _ => none

/-- A code point above the first plane from its two halves. -/
def fromHalves (high low : Nat) : Char := Char.ofNat (0x10000 + (high - 0xd800) * 1024 + (low - 0xdc00))

/-- What stands after a backslash: the character it means, and the rest. -/
def escaped? : List Char → Option (Char × List Char)
  | '"' :: cs => some ('"', cs)
  | '\\' :: cs => some ('\\', cs)
  | '/' :: cs => some ('/', cs)
  | 'b' :: cs => some ('\x08', cs)
  | 'f' :: cs => some ('\x0c', cs)
  | 'n' :: cs => some ('\n', cs)
  | 'r' :: cs => some ('\r', cs)
  | 't' :: cs => some ('\t', cs)
  | 'u' :: cs =>
    match unit? cs with
    | none => none
    | some (n, cs) =>
      if 0xd800 ≤ n ∧ n < 0xdc00 then
        match cs with
        | '\\' :: 'u' :: more =>
          match unit? more with
          | some (m, rest) =>
            if 0xdc00 ≤ m ∧ m < 0xe000 then some (fromHalves n m, rest) else some ('\ufffd', cs)
          | none => some ('\ufffd', cs)
        | _ => some ('\ufffd', cs)
      else if 0xdc00 ≤ n ∧ n < 0xe000 then some ('\ufffd', cs)
      else some (Char.ofNat n, cs)
  | _ => none

/-- The rest of a text after its opening quote; it has fewer than `fuel` characters. -/
def text? : Nat → String → List Char → Option (String × List Char)
  | 0, _, _ => none
  | fuel + 1, out, cs =>
    match cs with
    | [] => none
    | '"' :: rest => some (out, rest)
    | '\\' :: rest =>
      match escaped? rest with
      | none => none
      | some (c, rest) => text? fuel (out.push c) rest
    | c :: rest => if c.toNat < 32 then none else text? fuel (out.push c) rest

/-- A number without its sign. -/
def unsigned? (negative : Bool) (cs : List Char) : Option (Number × List Char) :=
  match Numeral.digits 0 0 cs with
  | (_, 0, _) => none
  | (n, count, rest) =>
    if 1 < count ∧ cs.head? = some '0' then none
    else
      match rest with
      | '.' :: more =>
        match Numeral.digits n 0 more with
        | (_, 0, _) => none
        | (m, places, rest) =>
          (Numeral.exponent? rest).map fun (e, rest) => (Number.ofDecimal negative m (e - places), rest)
      | rest => (Numeral.exponent? rest).map fun (e, rest) => (Number.ofDecimal negative n e, rest)

/-- A number. -/
def number? : List Char → Option (Number × List Char)
  | '-' :: cs => unsigned? true cs
  | cs => unsigned? false cs

mutual

/-- One value, with blanks before it; `fuel` bounds the parts it has. -/
def value? : Nat → List Char → Option (Value × List Char)
  | 0, _ => none
  | fuel + 1, cs =>
    match skip cs with
    | 'n' :: 'u' :: 'l' :: 'l' :: rest => some (.null, rest)
    | 't' :: 'r' :: 'u' :: 'e' :: rest => some (.bool true, rest)
    | 'f' :: 'a' :: 'l' :: 's' :: 'e' :: rest => some (.bool false, rest)
    | '"' :: rest => (text? (fuel + 1) "" rest).map fun (s, rest) => (.text s, rest)
    | '[' :: rest =>
      match skip rest with
      | ']' :: rest => some (.array .constant [], rest)
      | rest => elements? fuel [] rest
    | '\x7b' :: rest =>
      match skip rest with
      | '\x7d' :: rest => some (.record .constant [], rest)
      | rest => members? fuel [] rest
    | rest => (number? rest).map fun (n, rest) => (.number n, rest)

/-- The elements of an array up to its closing bracket, the newest first in `done`. -/
def elements? : Nat → List Value → List Char → Option (Value × List Char)
  | 0, _, _ => none
  | fuel + 1, done, cs =>
    match value? fuel cs with
    | none => none
    | some (v, rest) =>
      match skip rest with
      | ',' :: rest => elements? fuel (v :: done) rest
      | ']' :: rest => some (.array .constant (v :: done).reverse, rest)
      | _ => none

/-- The fields of a record up to its closing brace, the newest first in `done`. -/
def members? : Nat → List (String × Value) → List Char → Option (Value × List Char)
  | 0, _, _ => none
  | fuel + 1, done, cs =>
    match skip cs with
    | '"' :: rest =>
      match text? (fuel + 1) "" rest with
      | none => none
      | some (key, rest) =>
        match skip rest with
        | ':' :: rest =>
          match value? fuel rest with
          | none => none
          | some (v, rest) =>
            match skip rest with
            | ',' :: rest => members? fuel ((key, v) :: done) rest
            | '\x7d' :: rest => some (.record .constant (Fields.ofList ((key, v) :: done).reverse), rest)
            | _ => none
        | _ => none
    | _ => none

end

/-- The value that a whole text writes, blanks around it allowed. -/
def read? (s : String) : Option Value :=
  let cs := s.toList
  match value? (cs.length + 1) cs with
  | some (v, rest) => if (skip rest).isEmpty then some v else none
  | none => none

end CommittedChoice.Json

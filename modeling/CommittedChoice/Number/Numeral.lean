import CommittedChoice.Number.Basic
import CommittedChoice.Text.Basic

/-!
# Numerals

Numbers read from the front of a list of characters.

- `digits`, `decimal?`: digits, and digits with a point and an exponent;
- `radix?`: digits in base 16, 8 or 2 with a mark in front;
- `read`: the number that a whole text counts as. Blanks around it do not matter, an empty text counts as zero, and a
  text that is no numeral as not a number;
- `integer?`: the integer of any size that a whole text writes.
-/

namespace CommittedChoice.Numeral

/-- The leading digits: the number that they continue `n` to, how many there are, and the rest. -/
def digits : Nat → Nat → List Char → Nat × Nat × List Char
  | n, count, c :: cs => if c.isDigit then digits (10 * n + (c.toNat - 48)) (count + 1) cs else (n, count, c :: cs)
  | n, count, [] => (n, count, [])

/-- Whether a sign in front is a minus sign, and what follows it. -/
def sign : List Char → Bool × List Char
  | '-' :: cs => (true, cs)
  | '+' :: cs => (false, cs)
  | cs => (false, cs)

/-- The exponent of a number, zero if there is none. -/
def exponent? : List Char → Option (Int × List Char)
  | c :: cs =>
    if c = 'e' ∨ c = 'E' then
      let (negative, cs) := sign cs
      match digits 0 0 cs with
      | (_, 0, _) => none
      | (n, _, rest) => some (if negative then -(n : Int) else n, rest)
    else some (0, c :: cs)
  | [] => some (0, [])

/-- Digits with a point among, before or after them, and an exponent. -/
def decimal? (negative : Bool) (cs : List Char) : Option (Number × List Char) :=
  let (n, before, rest) := digits 0 0 cs
  let (m, after, rest) := match rest with
    | '.' :: more => digits n 0 more
    | rest => (n, 0, rest)
  if before + after = 0 then none
  else (exponent? rest).map fun (e, rest) => (Number.ofDecimal negative m (e - after), rest)

/-- The value of a digit in a base of at most 16. -/
def digitValue? (base : Nat) (c : Char) : Option Nat :=
  let n :=
    if '0' ≤ c ∧ c ≤ '9' then c.toNat - 48
    else if 'a' ≤ c ∧ c ≤ 'f' then c.toNat - 87
    else if 'A' ≤ c ∧ c ≤ 'F' then c.toNat - 55
    else base
  if n < base then some n else none

/-- The number that digits in a base write; there is at least one, and nothing else. -/
def inBase? (base : Nat) (cs : List Char) : Option Nat :=
  if cs.isEmpty then none
  else cs.foldl (fun n c => do return base * (← n) + (← digitValue? base c)) (some 0)

/-- The base that the letter of a mark stands for. -/
def base? (c : Char) : Option Nat :=
  if c = 'x' ∨ c = 'X' then some 16
  else if c = 'o' ∨ c = 'O' then some 8
  else if c = 'b' ∨ c = 'B' then some 2
  else none

/-- Digits with the mark of their base in front. -/
def radix? : List Char → Option Nat
  | '0' :: c :: cs => (base? c).bind fun base => inBase? base cs
  | _ => none

/-- The number of a numeral without blanks around it. -/
def unpadded? (cs : List Char) : Option Number :=
  match radix? cs with
  | some n => some (.ofNat n)
  | none =>
    let (negative, rest) := sign cs
    if rest = "Infinity".toList then some (.infinity negative)
    else
      match decimal? negative rest with
      | some (n, []) => some n
      | _ => none

/-- The number that a text counts as. -/
def read (s : String) : Number :=
  let cs := Text.trim s.toList
  if cs.isEmpty then .whole 0 else (unpadded? cs).getD Number.nan

/-- The integer that a text writes, by digits with a sign or by digits in another base. An empty text counts as zero. -/
def integer? (s : String) : Option Int :=
  let cs := Text.trim s.toList
  if cs.isEmpty then some 0
  else
    match radix? cs with
    | some n => some n
    | none =>
      let (negative, rest) := sign cs
      (inBase? 10 rest).map fun n => if negative then -(n : Int) else n

end CommittedChoice.Numeral

import CommittedChoice.Number.Shortest

/-!
# Numbers

A number of this library is a double: an integer (`whole`), or something else (`other`: a fraction, an infinity or
not a number). Integers are kept exactly, so everything that counts tokens is integer arithmetic; the two zeros are
one number here, because no operation tells them apart.

- `ofInt` rounds an integer to 53 significant bits, ties to even;
- `text` writes the fewest digits that read back, positionally from `1e-6` up to below `1e21`.
-/

namespace CommittedChoice

/-- A double: an integer, or a fraction, an infinity or not a number. -/
inductive Number where
  | whole (i : Int)
  | other (f : Float)

namespace Number

instance : Inhabited Number := ⟨.whole 0⟩

/-- The least natural number at or above which not every integer is a double. -/
def exactBound : Nat := pow2 53

/-- Keeps 53 significant bits of `n`, ties to even. -/
def roundNat (n : Nat) : Nat :=
  if n < exactBound then n
  else
    let shift := n.log2 - 52
    let unit := pow2 shift
    let kept := n / unit
    let dropped := n % unit
    if unit < 2 * dropped ∨ (2 * dropped = unit ∧ kept % 2 = 1) then (kept + 1) * unit else kept * unit

/-- An infinity, the negative one if asked. -/
def infinity (negative : Bool) : Number := .other (if negative then -1.0 / 0.0 else 1.0 / 0.0)

/-- Not a number. -/
def nan : Number := .other (0.0 / 0.0)

/-- The double nearest to an integer. -/
def ofInt (i : Int) : Number :=
  let n := roundNat i.natAbs
  if n.log2 < 1024 then .whole (if i < 0 then -(n : Int) else n) else infinity (i < 0)

/-- The double nearest to a natural number. -/
def ofNat (n : Nat) : Number := ofInt n

/-- Mantissa, exponent and binade of a double that is positive and finite. -/
def Binary.ofBits (bits : UInt64) : Binary :=
  let raw := ((bits >>> 52) &&& 0x7ff).toNat
  let low := (bits &&& 0xfffffffffffff).toNat
  if raw = 0 then ⟨low, -1074, false⟩ else ⟨low + pow2 52, (raw : Int) - 1075, low = 0 ∧ 1 < raw⟩

/-- A positive integer below `2 ^ 1024` that is a double. -/
def Binary.ofNat (n : Nat) : Binary :=
  let shift := n.log2 - 52
  if n.log2 < 52 then ⟨n * pow2 (52 - n.log2), (n.log2 : Int) - 52, n = pow2 n.log2⟩
  else ⟨n / pow2 shift, shift, n = pow2 n.log2⟩

/-- A number from a double; integral ones become exact. -/
def ofFloat (f : Float) : Number :=
  if f.isNaN || f.isInf || f.floor != f then .other f
  else if f == 0.0 then .whole 0
  else
    let b := Binary.ofBits f.abs.toBits
    let n := if 0 ≤ b.exponent then b.mantissa * pow2 b.exponent.toNat else b.mantissa / pow2 (-b.exponent).toNat
    .whole (if f < 0.0 then -(n : Int) else n)

/-- The number as a double. -/
def toFloat : Number → Float
  | .whole i => Float.ofInt i
  | .other f => f

/-- The number written `digits * 10 ^ exponent`, with its sign. -/
def ofDecimal (negative : Bool) (digits : Nat) (exponent : Int) : Number :=
  if digits = 0 then .whole 0
  else if 400 < (digitCount digits : Int) + exponent then infinity negative
  else if (digitCount digits : Int) + exponent < -400 then .whole 0
  else if 0 ≤ exponent then
    ofInt (if negative then -((digits * pow10 exponent.toNat : Nat) : Int) else (digits * pow10 exponent.toNat : Nat))
  else
    let f := Float.ofScientific digits true (-exponent).toNat
    ofFloat (if negative then -f else f)

/-- Equality of doubles: not a number differs from itself. -/
def same : Number → Number → Bool
  | .whole i, .whole j => i == j
  | .other f, .other g => f == g
  | _, _ => false

/-- Strict order of doubles. -/
def less : Number → Number → Bool
  | .whole i, .whole j => i < j
  | a, b => a.toFloat < b.toFloat

/-- The sum of two doubles. -/
def add : Number → Number → Number
  | .whole i, .whole j => ofInt (i + j)
  | a, b => ofFloat (a.toFloat + b.toFloat)

/-- The product of two doubles. -/
def mul : Number → Number → Number
  | .whole i, .whole j => ofInt (i * j)
  | a, b => ofFloat (a.toFloat * b.toFloat)

/-- The greater of two doubles; not a number if one of them is none. -/
def max : Number → Number → Number
  | a, b => if a.less b then b else if b.less a || a.same b then a else nan

/-- Whether the first number is at most the second; never, if one of them is none. -/
def atMost (a b : Number) : Bool := a.less b || a.same b

/-- The difference of two doubles. -/
def sub : Number → Number → Number
  | .whole i, .whole j => ofInt (i - j)
  | a, b => ofFloat (a.toFloat - b.toFloat)

/-- What adding one `k` times comes to. A double that is too large to be told from its successor stays as it is. -/
def ahead : Number → Nat → Number
  | n, 0 => n
  | .whole i, k + 1 =>
    if i.natAbs ≤ exactBound then .whole (min (i + (k + 1 : Nat)) exactBound)
    else
      let next := ofInt (i + 1)
      if next.same (.whole i) then next else ahead next k
  | n, k + 1 =>
    let next := n.add (.whole 1)
    if next.same n then n else ahead next k

/-- How many natural numbers are below the number, if it is not infinitely many. -/
def naturalsBelow? : Number → Option Nat
  | .whole i => some i.toNat
  | .other f =>
    if f.isNaN || f < 0.0 then some 0
    else if f.isInf then none
    else some f.ceil.toUInt64.toNat

/-- Whether the number is an integer. -/
def isWhole : Number → Bool
  | .whole _ => true
  | .other _ => false

/-- Whether the number is neither infinite nor not a number. -/
def isFinite : Number → Bool
  | .whole _ => true
  | .other f => f.isFinite

/-! ## Text -/

/-- Digits in positional notation while the point stands from six places before them to 21 places after their
start, with an exponent otherwise. -/
def layout (d : Decimal) : String :=
  let digits := Nat.toDigits 10 d.digits
  let k : Int := digits.length
  let point := k + d.scale
  let zeros (n : Int) := List.replicate n.toNat '0'
  if k ≤ point ∧ point ≤ 21 then String.ofList (digits ++ zeros (point - k))
  else if 0 < point ∧ point ≤ 21 then
    String.ofList (digits.take point.toNat ++ '.' :: digits.drop point.toNat)
  else if -6 < point ∧ point ≤ 0 then String.ofList ('0' :: '.' :: zeros (-point) ++ digits)
  else
    let exponent := point - 1
    let mark := (if exponent < 0 then "e-" else "e+") ++ String.ofList (Nat.toDigits 10 exponent.natAbs)
    match digits with
    | [] => mark
    | [c] => String.ofList [c] ++ mark
    | c :: more => String.ofList (c :: '.' :: more) ++ mark

/-- The decimal digits of an integer, with a minus sign before a negative one. -/
def intText (i : Int) : String :=
  (if i < 0 then "-" else "") ++ String.ofList (Nat.toDigits 10 i.natAbs)

/-- The fewest digits that read back as the number. -/
def text : Number → String
  | .whole i =>
    if i.natAbs < exactBound then intText i
    else (if i < 0 then "-" else "") ++ layout (Binary.ofNat i.natAbs).shortest
  | .other f =>
    if f.isNaN then "NaN"
    else if f.isInf then (if f < 0.0 then "-Infinity" else "Infinity")
    else (if f < 0.0 then "-" else "") ++ layout (Binary.ofBits f.abs.toBits).shortest

/-- Integers below the bound are doubles already. -/
theorem ofInt_of_small {i : Int} (h : i.natAbs < exactBound) : ofInt i = .whole i := by
  have hr : roundNat i.natAbs = i.natAbs := by simp [roundNat, h]
  have hb : i.natAbs.log2 < 1024 := by
    by_cases hz : i.natAbs = 0
    · simp [hz]
    · exact Nat.lt_trans ((Nat.log2_lt hz).2 h) (by decide)
  simp only [ofInt, hr, hb, if_true]
  split <;> congr 1 <;> omega

end Number

end CommittedChoice

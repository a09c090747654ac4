/-!
# Shortest decimal digits

- `Binary`: a positive number `mantissa * 2 ^ exponent` together with whether it starts a binade;
- `shortest`: the fewest decimal digits that still lie closer to that number than to its neighbours among the
  53-bit numbers; of two candidates with as many digits the nearer one, and of two equally near the even one.

The work is in exact `Nat` arithmetic. A number and the two midpoints to its neighbours are written over one common
denominator, and every grid of 1, 2, … 17 digits is tested at the two grid points around the number.
-/

namespace CommittedChoice.Number

/-- A positive number `mantissa * 2 ^ exponent`. At the start of a binade the gap below is half the gap above. -/
structure Binary where
  mantissa : Nat
  exponent : Int
  startsBinade : Bool

/-- A decimal number `digits * 10 ^ scale`. -/
structure Decimal where
  digits : Nat
  scale : Int
deriving Repr, DecidableEq

/-- A power of two. -/
def pow2 (n : Nat) : Nat := Nat.pow 2 n

/-- A power of ten. -/
def pow10 (n : Nat) : Nat := Nat.pow 10 n

/-- The number of decimal digits of `n`, counting one digit for zero. -/
def digitCount (n : Nat) : Nat := (Nat.toDigits 10 n).length

/-- Drops the trailing zeros of the digits; `fuel` bounds how many. -/
def Decimal.trim : Nat → Decimal → Decimal
  | 0, d => d
  | fuel + 1, d => if d.digits ≠ 0 ∧ d.digits % 10 = 0 then trim fuel ⟨d.digits / 10, d.scale + 1⟩ else d

/-- A number and the two midpoints around it, as numerators over one denominator. -/
structure Rounding where
  low : Nat
  value : Nat
  high : Nat
  denominator : Nat
  closed : Bool

/-- The reals that round to `b`; the ends belong to it exactly when the mantissa is even. -/
def Binary.rounding (b : Binary) : Rounding :=
  let e := b.exponent - 2
  let up := pow2 e.toNat
  let gap := if b.startsBinade then 1 else 2
  ⟨(4 * b.mantissa - gap) * up, 4 * b.mantissa * up, (4 * b.mantissa + 2) * up, pow2 (-e).toNat,
    b.mantissa % 2 == 0⟩

/-- Whether the decimal rounds to the number. -/
def Rounding.accepts (r : Rounding) (d : Decimal) : Bool :=
  let x := d.digits * pow10 d.scale.toNat * r.denominator
  let scaled (n : Nat) := n * pow10 (-d.scale).toNat
  if r.closed then scaled r.low ≤ x && x ≤ scaled r.high else scaled r.low < x && x < scaled r.high

/-- The decimal exponent of the first digit. -/
def Rounding.magnitude (r : Rounding) : Int :=
  if r.denominator ≤ r.value then (digitCount (r.value / r.denominator) : Int) - 1
  else
    let n := digitCount (r.denominator / r.value)
    if r.denominator ≤ r.value * pow10 (n - 1) then -((n : Int) - 1) else -(n : Int)

/-- The accepted points of the grid `10 ^ scale` next to the number, the better one if there are two. -/
def Rounding.onGrid (r : Rounding) (scale : Int) : Option Decimal :=
  let unit := r.denominator * pow10 scale.toNat
  let value := r.value * pow10 (-scale).toNat
  let below : Decimal := ⟨value / unit, scale⟩
  let above : Decimal := ⟨value / unit + 1, scale⟩
  match r.accepts below, r.accepts above with
  | true, true =>
    let remainder := value % unit
    if 2 * remainder < unit then some below
    else if unit < 2 * remainder then some above
    else if below.digits % 2 = 0 then some below else some above
  | true, false => some below
  | false, true => some above
  | false, false => none

/-- Tries grids of `n` digits and more; `fuel` grids in all. -/
def Rounding.search (r : Rounding) (magnitude : Int) : Nat → Nat → Decimal
  | 0, n => (⟨r.value * pow10 (n - magnitude).toNat / r.denominator, magnitude - n⟩ : Decimal)
  | fuel + 1, n => (r.onGrid (magnitude - n + 1)).getD (search r magnitude fuel (n + 1))

/-- The fewest decimal digits that read back as the number. -/
def Binary.shortest (b : Binary) : Decimal :=
  let r := b.rounding
  (r.search r.magnitude 17 1).trim 400

end CommittedChoice.Number

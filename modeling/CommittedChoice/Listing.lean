import CommittedChoice.Result

/-!
# Lists parsed on demand

A list of items is a chain of numbered nodes, each of which is computed when a reader reaches it.

- `Finish`: what a chain turns out to be once its last node is known;
- `Node`: an item and the number of the next node, or the end of the chain with the context that is left there;
- `nodeNumber`: the number of a node, from which the list and the place in it can be read off (`listOf`, `placeOf`).
-/

namespace CommittedChoice

/-- What a success turns out to be once its remainder is known. -/
inductive Finish where
  /-- Nothing committed. -/
  | plain
  /-- The success is committed. -/
  | committed
  /-- The parse failed after committing. -/
  | failed (rest : Context) (message : String)

/-- Where a list stopped. -/
structure ListEnd where
  rest : Context
  finish : Finish

/-- One node of a list. -/
inductive Node where
  | item (value : Value) (next : Nat)
  | ended (e : ListEnd)

/-- The fault that a reader meets at the end of a list, if the list ends in a failure. -/
def ListEnd.fault? (e : ListEnd) : Option Fault :=
  match e.finish with
  | .failed z message => some (.parse message (.whole z.input.offset))
  | _ => none

/-! ## Numbers of nodes -/

/-- A power is the power of `Nat` here, also where the powers of all monoids are in sight. -/
local instance (priority := high) powNat : Pow Nat Nat := instPowNat

/-- The number of a node: a one, then the list and the place in it, in as many bits as the longer of the two needs. -/
def nodeNumber (list place : Nat) : Nat :=
  let bits := (max list place).log2 + 1
  2 ^ bits * (2 ^ bits + list) + place

/-- How many bits of a node's number are its place. -/
def placeBits (n : Nat) : Nat := n.log2 / 2

/-- The list that a node belongs to. -/
def listOf (n : Nat) : Nat := n / 2 ^ placeBits n % 2 ^ placeBits n

/-- The place of a node in its list. -/
def placeOf (n : Nat) : Nat := n % 2 ^ placeBits n

theorem lt_two_pow_log2_succ {a b : Nat} (h : a ≤ b) : a < 2 ^ (b.log2 + 1) :=
  Nat.lt_of_le_of_lt h Nat.lt_log2_self

@[simp] theorem placeBits_nodeNumber (list place : Nat) :
    placeBits (nodeNumber list place) = (max list place).log2 + 1 := by
  have hl := lt_two_pow_log2_succ (Nat.le_max_left list place)
  have hp := lt_two_pow_log2_succ (Nat.le_max_right list place)
  unfold placeBits nodeNumber
  dsimp only
  generalize (max list place).log2 + 1 = b at hl hp ⊢
  have hlog : (2 ^ b * (2 ^ b + list) + place).log2 = 2 * b := by
    have hpos : 0 < 2 ^ b := Nat.two_pow_pos b
    have hsq : 2 ^ (2 * b) = 2 ^ b * 2 ^ b := by rw [Nat.two_mul, Nat.pow_add]
    have hlt : 2 ^ b * (list + 1) ≤ 2 ^ b * 2 ^ b := Nat.mul_le_mul_left _ hl
    have hne : 2 ^ b * (2 ^ b + list) + place ≠ 0 := by
      have := Nat.mul_pos hpos (Nat.lt_of_lt_of_le hpos (Nat.le_add_right _ list))
      omega
    rw [Nat.log2_eq_iff hne, Nat.pow_succ, hsq]
    rw [Nat.mul_add] at hlt ⊢
    omega
  omega

@[simp] theorem listOf_nodeNumber (list place : Nat) : listOf (nodeNumber list place) = list := by
  have hl := lt_two_pow_log2_succ (Nat.le_max_left list place)
  have hp := lt_two_pow_log2_succ (Nat.le_max_right list place)
  rw [listOf, placeBits_nodeNumber, nodeNumber]
  rw [Nat.mul_add_div (Nat.two_pow_pos _), Nat.div_eq_of_lt hp, Nat.add_zero, Nat.add_mod_left, Nat.mod_eq_of_lt hl]

@[simp] theorem placeOf_nodeNumber (list place : Nat) : placeOf (nodeNumber list place) = place := by
  have hp := lt_two_pow_log2_succ (Nat.le_max_right list place)
  rw [placeOf, placeBits_nodeNumber, nodeNumber]
  rw [Nat.mul_add_mod, Nat.mod_eq_of_lt hp]

end CommittedChoice

import CommittedChoice.Number.Basic

/-!
# Values

Tokens, parsed values, threaded states and loop states are all values of one type.

- `Identity`: compound values have one, so two arrays with the same elements can still be told apart;
- `same` is the equality that predicates use: by content for simple values, by identity for compound ones and for
  symbols; not a number differs from itself;
- `numbered` gives every compound value inside a value an identity of its own;
- `integer` and `joined` are the two readings of a value that callbacks work with.
-/

namespace CommittedChoice

/-- The two-place operations. -/
inductive Operation where
  | add | sub | mul | pair | cat | left | right
deriving Repr, DecidableEq

/-- Which of the values with one content a value is. -/
inductive Identity where
  /-- One of which there is only one. -/
  | constant
  /-- Written in a program or its input, by number. -/
  | written (n : Nat)
  /-- Made by a run, by number. -/
  | made (n : Nat)
  /-- The item before this node of a list. -/
  | item (node : Nat)
deriving Repr, DecidableEq

/-- Functions as data, with arguments of type `α` stored in them. -/
inductive Function (α : Type) where
  /-- The built-in maximum. -/
  | maximum
  /-- A two-place operation; `noting` is written to the journal at each call. -/
  | operation (op : Operation) (noting : Option String)
  /-- Puts its two arguments around `middle`, in round brackets. -/
  | enclosing (id : Identity) (middle : α)
  /-- An operation whose left argument is given. -/
  | applied (id : Identity) (op : Operation) (left : α)
  /-- A function that a program defines, by its number; `held` is what it was made from. -/
  | defined (id : Identity) (n : Nat) (held : α)

/-- Whether two functions are one: built-in ones by what they do, those made by a run by identity. -/
def Function.same {α : Type} : Function α → Function α → Bool
  | .maximum, .maximum => true
  | .operation f m, .operation g n => f == g && m == n
  | .enclosing i _, .enclosing j _ => i == j
  | .applied i _ _, .applied j _ _ => i == j
  | .defined i _ _, .defined j _ _ => i == j
  | _, _ => false

/-- What one turn of a loop says: go round again with a new state, or stop with a value. -/
inductive Step (α : Type) where
  | again (state : α)
  | done (value : α)

/-- The values that parsers read, produce and thread. -/
inductive Value where
  | absent
  | null
  | bool (b : Bool)
  | number (n : Number)
  | bigint (i : Int)
  | text (s : String)
  | symbol (id : Identity) (name : String)
  | array (id : Identity) (items : List Value)
  | record (id : Identity) (fields : List (String × Value))
  /-- A record that contains itself. -/
  | knot
  /-- A record without a written form. -/
  | mute
  | function (f : Function Value)
  /-- A list whose items are parsed as it is read, by the number of its first node. -/
  | list (node : Nat)
  /-- The result of one turn of a loop. -/
  | step (s : Step Value)

namespace Value

instance : Inhabited Value := ⟨.absent⟩

/-- The natural number `n` as a value. -/
def nat (n : Nat) : Value := .number (.whole n)

/-- The integer `i` as a value. -/
def int (i : Int) : Value := .number (.whole i)

/-- The characters of a text, each as a text of its own. -/
def chars (s : String) : List Value := s.toList.map fun c => .text (String.singleton c)

/-- Go round again. -/
def again (state : Value) : Value := .step (.again state)

/-- Stop with a value. -/
def done (value : Value) : Value := .step (.done value)

/-- Reads the result of one turn; what is no such result goes round again with nothing. -/
def toStep : Value → Step Value
  | .step s => s
  | _ => .again .absent

/-- Equality of tokens. -/
def same : Value → Value → Bool
  | .absent, .absent => true
  | .null, .null => true
  | .bool a, .bool b => a == b
  | .number m, .number n => m.same n
  | .bigint i, .bigint j => i == j
  | .text s, .text t => s == t
  | .symbol i _, .symbol j _ => i == j
  | .array i _, .array j _ => i == j
  | .record i _, .record j _ => i == j
  | .knot, .knot => true
  | .mute, .mute => true
  | .function f, .function g => f.same g
  | .list m, .list n => m == n
  | _, _ => false

/-- The integer a value stands for in arithmetic; zero if it is no integer. -/
def integer : Value → Int
  | .number (.whole i) => i
  | _ => 0

/-- The elements of an array, nothing of anything else. -/
def items? : Value → Option (List Value)
  | .array _ xs => some xs
  | _ => none

/-- The elements of an array; anything else has none. -/
def items (v : Value) : List Value := v.items?.getD []

/-- The elements of an array; anything else counts as its only element. -/
def itemsOrSelf (v : Value) : List Value := v.items?.getD [v]

mutual

/-- The text of a value: texts and numbers as they are written, arrays element by element, nothing else. -/
def joined : Value → String
  | .text s => s
  | .number n => n.text
  | .array _ xs => joinedAll xs
  | _ => ""

/-- The texts of all values, one after the other. -/
def joinedAll : List Value → String
  | [] => ""
  | x :: xs => joined x ++ joinedAll xs

end

/-- The kind of a value, as predicates name it. -/
def kind : Value → String
  | .absent => "undefined"
  | .bool _ => "boolean"
  | .number _ => "number"
  | .bigint _ => "bigint"
  | .text _ => "string"
  | .symbol _ _ => "symbol"
  | .function _ => "function"
  | _ => "object"

mutual

/-- Gives every compound value inside a value an identity of its own, by numbers from `n` on; the number after the last
one comes with it. -/
def numbered : Value → Nat → Value × Nat
  | .array _ xs, n =>
    match numberedAll [] xs (n + 1) with
    | (ys, m) => (.array (.written n) ys, m)
  | .record _ fields, n =>
    match numberedFields [] fields (n + 1) with
    | (ys, m) => (.record (.written n) ys, m)
  | v, n => (v, n)

/-- The same for the elements of an array, the newest first in `done`. -/
def numberedAll (done : List Value) : List Value → Nat → List Value × Nat
  | [], n => (done.reverse, n)
  | x :: xs, n =>
    match numbered x n with
    | (y, m) => numberedAll (y :: done) xs m

/-- The same for the fields of a record, the newest first in `done`. -/
def numberedFields (done : List (String × Value)) : List (String × Value) → Nat → List (String × Value) × Nat
  | [], n => (done.reverse, n)
  | (key, x) :: fields, n =>
    match numbered x n with
    | (y, m) => numberedFields ((key, y) :: done) fields m

end

@[simp] theorem toStep_again (s : Value) : (again s).toStep = .again s := rfl

@[simp] theorem toStep_done (v : Value) : (done v).toStep = .done v := rfl

@[simp] theorem same_nat (m n : Nat) : (nat m).same (nat n) = (m == n) := by
  show ((m : Int) == (n : Int)) = (m == n)
  rw [Bool.eq_iff_iff, beq_iff_eq, beq_iff_eq]
  omega

end Value

/-! ## Operations -/

namespace Operation

/-- The operation of a name. -/
def ofName? : String → Option Operation
  | "add" => some .add
  | "sub" => some .sub
  | "mul" => some .mul
  | "pair" => some .pair
  | "cat" => some .cat
  | "left" => some .left
  | "right" => some .right
  | _ => none

end Operation

end CommittedChoice

import CommittedChoice.Listing
import CommittedChoice.Message

/-!
# Callbacks

What a callback does is a finite tree of actions that ends in a value or in a fault. A callback may write a note to the
journal, ask for the configured indentation, count its calls, make values with an identity of their own, and read lists
that are parsed on demand; a callback that does none of this is `Act.pure`.

- `array`: a new array;
- `take`, `toArray`: reading a list, up to a number of items or to its end;
- `Definitions`: what the functions do that a program defines;
- `call`: calling a function that is a value.
-/

namespace CommittedChoice

/-- What a callback does before it answers. -/
inductive Act (α : Type) where
  /-- Answers. -/
  | pure (a : α)
  /-- Stops with a fault. -/
  | throw (e : Fault)
  /-- Writes a note. -/
  | note (id : String) (next : Act α)
  /-- Asks for the configured indentation. -/
  | width (k : Nat → Act α)
  /-- Counts under a mark, and asks how often that was done before. -/
  | count (mark : Nat) (k : Nat → Act α)
  /-- Asks for an identity that no other value has. -/
  | fresh (k : Identity → Act α)
  /-- Reads one node of a list. -/
  | node (n : Nat) (k : Node → Act α)
  /-- Reads a list from a node to its end. -/
  | walk (n : Nat) (k : List Value → ListEnd → Act α)

namespace Act

variable {α β : Type}

/-- Goes on with the answer. -/
def bind : Act α → (α → Act β) → Act β
  | .pure a, k => k a
  | .throw e, _ => .throw e
  | .note id next, k => .note id (next.bind k)
  | .width f, k => .width fun w => (f w).bind k
  | .count mark f, k => .count mark fun c => (f c).bind k
  | .fresh f, k => .fresh fun id => (f id).bind k
  | .node n f, k => .node n fun x => (f x).bind k
  | .walk n f, k => .walk n fun xs e => (f xs e).bind k

instance : Monad Act where
  pure := .pure
  bind := .bind

instance : Inhabited (Act α) := ⟨.throw (.raised "")⟩

/-- Writes a note. -/
def noted (id : String) : Act Unit := .note id (.pure ())

/-- The configured indentation. -/
def indentation : Act Nat := .width .pure

/-- How often the mark was counted before. -/
def counted (mark : Nat) : Act Nat := .count mark .pure

/-- Writes a note the first time the mark is counted. -/
def notedOnce (mark : Nat) (id : String) : Act Unit :=
  .count mark fun c => if c = 0 then noted id else .pure ()

/-- Answers, or stops with a fault. -/
def ofExcept : Except Fault α → Act α
  | .ok a => .pure a
  | .error e => .throw e

/-! ## Making values -/

/-- A new array. -/
def array (items : List Value) : Act Value := .fresh fun id => .pure (.array id items)

/-- A text, which is no longer than texts can be. -/
def text (s : String) : Act Value := if Text.fits s then .pure (.text s) else .throw .tooLong

/-! ## Reading lists -/

/-- Up to `n` items from a node on, the newest first in `done`. No more nodes are read than needed. -/
def takeFrom : Nat → Nat → List Value → Act (List Value)
  | 0, _, done => .pure done.reverse
  | n + 1, start, done =>
    .node start fun
      | .item v next => takeFrom n next (v :: done)
      | .ended e =>
        match e.fault? with
        | some fault => .throw fault
        | none => .pure done.reverse

/-- Up to `n` leading items of a list. -/
def take (n start : Nat) : Act (List Value) := takeFrom n start []

/-- All items of a list; a list that ends in a failure throws it. -/
def toArray (start : Nat) : Act (List Value) :=
  .walk start fun items e =>
    match e.fault? with
    | some fault => .throw fault
    | none => .pure items

/-- The leading items of a list, as many as there are natural numbers below `n`. -/
def takeBelow (n : Number) (start : Nat) : Act (List Value) :=
  match n.naturalsBelow? with
  | some k => take k start
  | none => toArray start

/-- Where a list stops. -/
def endOf (start : Nat) : Act ListEnd := .walk start fun _ e => .pure e

/-! ## Calling functions -/

end Act

/-- What an operation does. Arithmetic works on the integers its arguments stand for. -/
def Operation.apply (op : Operation) (l r : Value) : Act Value :=
  match op with
  | .add => .pure (.number (.ofInt (l.integer + r.integer)))
  | .sub => .pure (.number (.ofInt (l.integer - r.integer)))
  | .mul => .pure (.number (.ofInt (l.integer * r.integer)))
  | .pair => .array [l, r]
  | .cat => .text (l.joined ++ r.joined)
  | .left => .pure l
  | .right => .pure r

/-- The greatest of numbers, negative infinity if there are none. -/
def Number.maximum (ns : List Number) : Number := ns.foldl Number.max (Number.infinity true)

/-- What the functions that a program defines do, by their numbers: each of them is told what it was made from and its
arguments. -/
abbrev Definitions := Nat → Value → List Value → Act Value

/-- A program that defines no functions. -/
def Definitions.none : Definitions := fun _ _ _ => .throw (.mistyped "undefined is not a function")

/-- Calls a function that is a value; `name` is what a fault calls it. Arguments that are missing are absent. -/
def Act.call (ds : Definitions) (name : String) (f : Value) (args : List Value) : Act Value :=
  let first := args.headD .absent
  let second := args.tail.headD .absent
  match f with
  | .function .maximum => do
    let ns ← Act.ofExcept (args.mapM Value.asNumber)
    return .number (.maximum ns)
  | .function (.operation op noting) =>
    match noting with
    | some id => .note id (op.apply first second)
    | none => op.apply first second
  | .function (.enclosing _ middle) => .text ("(" ++ first.joined ++ middle.joined ++ second.joined ++ ")")
  | .function (.applied _ op l) => op.apply l first
  | .function (.defined _ n held) => ds n held args
  | _ => .throw (.mistyped (name ++ " is not a function"))

end CommittedChoice

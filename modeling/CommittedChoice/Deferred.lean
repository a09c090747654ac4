import CommittedChoice.Run

/-!
# Deferred values and lists

Memoized computations that are not parsers.

- `Recipe`: what a deferred value does when it is demanded. It may demand other deferred values, or itself, and may go
  on after a demand that failed;
- `Shelf.demand`: the value of a cell, computed once;
- `Chain`: lists whose cells are computed as they are read, up to a number of items or to their end.
-/

namespace CommittedChoice

/-! ## Values -/

/-- How a deferred value is computed. -/
inductive Recipe where
  /-- Ends with what a callback answers. -/
  | answer (act : Act Value)
  /-- Does something first, and goes on with what comes of it. -/
  | first (act : Act Value) (k : Value → Recipe)
  /-- Demands a cell, and goes on with its value or with the fault that stopped it. -/
  | demand (cell : Nat) (k : Except Fault Value → Recipe)

namespace Recipe

/-- A value that leaves a note when it is computed. -/
def noted (id : String) (v : Value) : Recipe := .answer (.note id (.pure v))

/-- A value that is not ready for the first `k` times. The mark counts them. -/
def flaky (mark : Nat) (id : String) (v : Value) (k : Nat) : Recipe :=
  .answer (.note id (.count mark fun c => if c < k then .throw (.notReady id) else .pure v))

/-- Adds the integers of cells to `total`, in order; a fault of one of them is a fault of the sum. -/
def sumFrom (total : Number) : List Nat → Recipe
  | [] => .answer (.pure (.number total))
  | i :: is => .demand i fun
    | .ok v => sumFrom (total.add (.whole v.integer)) is
    | .error e => .answer (.throw e)

/-- The sum of cells. -/
def sum (id : String) (cells : List Nat) : Recipe :=
  .first (.note id (.pure .absent)) fun _ => sumFrom (.whole 0) cells

/-- The value of a cell, or the message of the fault that stopped it. -/
def guarded (id : String) (cell : Nat) : Recipe :=
  .first (.note id (.pure .absent)) fun _ => .demand cell fun
    | .ok v => .answer (.pure v)
    | .error e => .answer (.pure (.text e.message))

/-- A function of a cell. -/
def mapped (cell : Nat) (f : Value → Act Value) : Recipe :=
  .demand cell fun
    | .ok v => .answer (f v)
    | .error e => .answer (.throw e)

end Recipe

/-- Deferred values and the world in which they are computed. -/
structure Shelf where
  world : World := {}
  cells : Array (Cell Recipe Value) := #[]

namespace Shelf

/-- The fault of a demand for a cell that was never made. -/
def missing : Fault := .mistyped "Cannot read properties of undefined (reading 'force')"

/-- The cells of a shelf. -/
def table : Table Shelf Recipe Value := ⟨Shelf.cells, fun f s => { s with cells := f s.cells }⟩

/-- What a callback does in the world of a shelf. -/
def exec {α : Type} (env : Env) (act : Act α) (s : Shelf) : Except Halt α × Shelf :=
  match act.exec env .none s.world with
  | (r, w) => (r, { s with world := w })

/-- Follows a recipe, given how to demand a cell. -/
def follow (env : Env) (demand : Nat → Shelf → Except Halt Value × Shelf) : Recipe → Shelf → Except Halt Value × Shelf
  | .answer act, s => s.exec env act
  | .first act k, s =>
    match s.exec env act with
    | (.ok v, s) => follow env demand (k v) s
    | (.error e, s) => (.error e, s)
  | .demand i k, s =>
    match demand i s with
    | (.ok v, s) => follow env demand (k (.ok v)) s
    | (.error (.fault e), s) => follow env demand (k (.error e)) s
    | (.error .outOfFuel, s) => (.error .outOfFuel, s)

/-- The value of a cell; the fuel bounds how deep demands are nested. -/
def demand (env : Env) : Nat → Nat → Shelf → Except Halt Value × Shelf
  | 0, _, s => (.error .outOfFuel, s)
  | n + 1, i, s =>
    if i < s.cells.size then table.force (follow env (demand env n)) (.fault .reentered) i s
    else (.error (.fault missing), s)

/-- Fuel enough for every nesting: each demand inside another one is for a cell that was waiting. -/
def depth (s : Shelf) : Nat := s.cells.size + 1

end Shelf

/-! ## Lists -/

/-- The head of a list and the cell of its tail, if the list is not empty. -/
inductive Link where
  | nil
  | cons (head : Value) (tail : Nat)

/-- How a cell of a list is computed. -/
inductive LinkTask where
  | does (act : Act Link)
  /-- The numbers from `n` on, one cell each. -/
  | counting (n : Number)

/-- A link that leaves a note when it is computed. -/
def LinkTask.noted (id : String) (l : Link) : LinkTask := .does (.note id (.pure l))

/-- A link that is not ready for the first `k` times. The mark counts them. -/
def LinkTask.flaky (mark : Nat) (id : String) (l : Link) (k : Nat) : LinkTask :=
  .does (.note id (.count mark fun c => if c < k then .throw (.notReady id) else .pure l))

/-- Lists and the world in which they are computed. -/
structure Chain where
  world : World := {}
  cells : Array (Cell LinkTask Link) := #[]

namespace Chain

/-- The cells of a chain. -/
def table : Table Chain LinkTask Link := ⟨Chain.cells, fun f s => { s with cells := f s.cells }⟩

/-- Does the task of one cell. -/
def compute (env : Env) : LinkTask → Chain → Except Halt Link × Chain
  | .does act, s =>
    match act.exec env .none s.world with
    | (r, w) => (r, { s with world := w })
  | .counting n, s =>
    match (Act.noted ("cell " ++ n.text)).exec env .none s.world with
    | (.error e, w) => (.error e, { s with world := w })
    | (.ok _, w) =>
      match table.add (.pending (.counting (n.add (.whole 1)))) { s with world := w } with
      | (tail, s) => (.ok (.cons (.number n) tail), s)

/-- The head and the tail of a list. -/
def link (env : Env) (i : Nat) : Chain → Except Halt Link × Chain := table.force (compute env) (.fault .reentered) i

/-- Up to `n` leading items, the newest first in `done`. No more cells are computed than needed. -/
def take (env : Env) : Nat → Nat → List Value → Chain → Except Halt (List Value) × Chain
  | 0, _, done, s => (.ok done.reverse, s)
  | n + 1, i, done, s =>
    match link env i s with
    | (.ok (.cons v tail), s) => take env n tail (v :: done) s
    | (.ok .nil, s) => (.ok done.reverse, s)
    | (.error e, s) => (.error e, s)

/-- All items of a list of fewer than `fuel` items. -/
def toArray (env : Env) (fuel i : Nat) (s : Chain) : Except Halt (List Value) × Chain := take env fuel i [] s

/-- The leading items of a list of fewer than `fuel` items, as many as there are natural numbers below `n`. -/
def takeBelow (env : Env) (fuel : Nat) (n : Number) (i : Nat) (s : Chain) : Except Halt (List Value) × Chain :=
  take env (n.naturalsBelow?.getD fuel) i [] s

end Chain

end CommittedChoice

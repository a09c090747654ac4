/-!
# Memoized computations

A table of numbered cells, each of which is computed the first time it is asked for. The type `θ` says what a cell has
to do, `α` is what it gives, and computing a cell may ask for other cells, change the table, and fail.

- `force`: the value of a cell. While a cell is being computed, asking for it again is refused; if its computation
  fails, the cell is as it was before and the next demand computes it again; once it has a value it keeps it.
-/

namespace CommittedChoice

/-- A cell that waits, that is being computed, or that has its value. -/
inductive Cell (θ α : Type) where
  | pending (task : θ)
  | forcing
  | forced (value : α)

/-- Whether the cell has its value. -/
def Cell.isForced {θ α : Type} : Cell θ α → Bool
  | .forced _ => true
  | _ => false

/-- A table of cells that is part of a larger state `σ`: how to see it and how to change it. -/
structure Table (σ θ α : Type) where
  cells : σ → Array (Cell θ α)
  update : (Array (Cell θ α) → Array (Cell θ α)) → σ → σ

namespace Table

variable {σ θ α ε : Type}

/-- Changes one cell. -/
@[inline] def set (t : Table σ θ α) (i : Nat) (c : Cell θ α) (s : σ) : σ :=
  t.update (fun cells => cells.setIfInBounds i c) s

/-- Adds a cell and gives its number. -/
@[inline] def add (t : Table σ θ α) (c : Cell θ α) (s : σ) : Nat × σ :=
  let i := (t.cells s).size
  (i, t.update (fun cells => cells.push c) s)

/-- The value of cell `i`, computed by `compute` unless it is known. `busy` is the answer to a demand for a cell that is
being computed. -/
@[inline] def force (t : Table σ θ α) (compute : θ → σ → Except ε α × σ) (busy : ε) (i : Nat) (s : σ) :
    Except ε α × σ :=
  match (t.cells s)[i]? with
  | some (.forced a) => (.ok a, s)
  | some (.pending task) =>
    match compute task (t.set i .forcing s) with
    | (.ok a, s) => (.ok a, t.set i (.forced a) s)
    | (.error e, s) => (.error e, t.set i (.pending task) s)
  | some .forcing | none => (.error busy, s)

end Table

end CommittedChoice

import CommittedChoice.Remainder

/-!
# Results

The result of applying a parser to a context `ζ` (what is left of the input, with the threaded state).

- `Verdict`: a success or a failure;
- `Result`: the same, plain or committed. No choice may discard a committed result, and a commitment is never nested;
- `bind`, `map`, `adjust`: sequencing, mapping and rewording, all of which keep a commitment.
-/

namespace CommittedChoice

/-- A success or a failure, with the context to go on from. -/
inductive Verdict (ζ α : Type) where
  | success (rest : ζ) (value : α)
  | failure (rest : ζ) (message : String)

/-- A success or a failure, and whether choices may still discard it. -/
inductive Result (ζ α : Type) where
  | plain (v : Verdict ζ α)
  | committed (v : Verdict ζ α)

namespace Result

variable {ζ α β : Type}

/-- A plain success. -/
def success (rest : ζ) (value : α) : Result ζ α := .plain (.success rest value)

/-- A plain failure. -/
def failure (rest : ζ) (message : String) : Result ζ α := .plain (.failure rest message)

instance [Inhabited ζ] : Inhabited (Result ζ α) := ⟨failure default ""⟩

/-- Drops the commitment. -/
def verdict : Result ζ α → Verdict ζ α
  | .plain v => v
  | .committed v => v

/-- Marks a result as committed; a second mark changes nothing. -/
def commit (r : Result ζ α) : Result ζ α := .committed r.verdict

/-- Whether choices may not discard the result. -/
def isCommitted : Result ζ α → Bool
  | .plain _ => false
  | .committed _ => true

/-- Whether the result is a plain success. -/
def isSuccess : Result ζ α → Bool
  | .plain (.success _ _) => true
  | _ => false

/-- Whether the result is a plain failure, after which a choice tries its next alternative. -/
def isFailure : Result ζ α → Bool
  | .plain (.failure _ _) => true
  | _ => false

/-- Commits a result if `b` holds. -/
def commitIf (b : Bool) (r : Result ζ α) : Result ζ α := if b then r.commit else r

/-- Goes on after a success; a commitment before covers everything after it. -/
@[inline] def bind {m : Type → Type} [Monad m] (r : Result ζ α) (k : ζ → α → m (Result ζ β)) : m (Result ζ β) :=
  match r with
  | .plain (.success z a) => k z a
  | .plain (.failure z e) => pure (failure z e)
  | .committed (.success z a) => do return (← k z a).commit
  | .committed (.failure z e) => pure (.committed (.failure z e))

/-- Applies a function to the value of a success. -/
@[inline] def map {m : Type → Type} [Monad m] (r : Result ζ α) (f : α → m β) : m (Result ζ β) :=
  match r with
  | .plain (.success z a) => do return success z (← f a)
  | .plain (.failure z e) => pure (failure z e)
  | .committed (.success z a) => do return .committed (.success z (← f a))
  | .committed (.failure z e) => pure (.committed (.failure z e))

/-- Rewords the message of a failure. -/
@[inline] def adjust {m : Type → Type} [Monad m] (r : Result ζ α) (f : String → m String) : m (Result ζ α) :=
  match r with
  | .plain (.failure z e) => do return failure z (← f e)
  | .committed (.failure z e) => do return .committed (.failure z (← f e))
  | r => pure r

/-- Changes the context that a failure reports. -/
def onFailureRest (r : Result ζ α) (f : ζ → ζ) : Result ζ α :=
  match r with
  | .plain (.failure z e) => failure (f z) e
  | .committed (.failure z e) => .committed (.failure (f z) e)
  | r => r

@[simp] theorem verdict_commit (r : Result ζ α) : r.commit.verdict = r.verdict := rfl

@[simp] theorem commit_commit (r : Result ζ α) : r.commit.commit = r.commit := rfl

end Result

/-- What is left of the input, and the threaded state. -/
structure Context where
  input : Remainder
  state : Value

end CommittedChoice

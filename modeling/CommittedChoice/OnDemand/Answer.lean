import CommittedChoice.Parser.Combinators
import CommittedChoice.Run

/-!
# Answers on demand

What a parser gives in the on-demand engine. Nothing here runs a parser; these are the shapes of work that is done,
half done, or still to do.

- `Late α`: a value that is known, or what has to be done for it;
- `Promise`: a success whose remainder and value are late. It may also have a late `Finish`: a list succeeds before its
  items are parsed, so a commitment or a failure among them only shows there;
- `Answer`: a promise, a failure, or a commitment to something still suspended, so that a commitment can be seen before
  the parser under it has run;
- `Suspended`: an answer, or a parser applied to a context with the frames (`Frame`) that are still around it.
-/

namespace CommittedChoice.OnDemand

/-- A value that is computed when it is asked for. -/
inductive Late (α : Type) where
  | known (a : α)
  | later (act : Act α)
  | mapped (l : Late α) (f : α → Act α)

/-- A success whose parts are computed when they are asked for. -/
structure Promise where
  rest : Late Context
  value : Late Value
  finish : Option (Late Finish) := none

/-- What is done with the answer of a parser. -/
inductive Frame where
  | bind (k : Value → Act Parser)
  | map (f : Value → Act Value)
  | reword (f : String → Act String)
  /-- Failures report this state. -/
  | restoring (state : Value)
  /-- After a plain failure, `q` in the context `z`. -/
  | orElse (q : Parser) (z : Context)
  /-- The turns of a loop after one that committed. -/
  | loop (step : Value → Act Parser)

mutual

/-- What a parser says when it is asked. -/
inductive Answer where
  | success (p : Promise)
  | failure (rest : Context) (message : String)
  | committed (inner : Suspended)

/-- A parser that has answered, or what is left to do until it does. -/
inductive Suspended where
  | ready (a : Answer)
  /-- Keeps what it has done if it is interrupted. -/
  | apply (p : Parser) (z : Context)
  /-- Starts again if it is interrupted. -/
  | afresh (p : Parser) (z : Context)
  /-- Does something first. -/
  | after (act : Act Unit) (s : Suspended)
  | framed (s : Suspended) (f : Frame)

end

/-- An answer without its commitment. -/
inductive Settled where
  | success (p : Promise)
  | failure (rest : Context) (message : String)

/-- A settled answer as an answer. -/
def Settled.toAnswer : Settled → Answer
  | .success p => .success p
  | .failure z message => .failure z message

/-- A success all of whose parts are known. -/
def Answer.known (z : Context) (v : Value) : Answer := .success { rest := .known z, value := .known v }

/-- A commitment to an answer; a second commitment changes nothing. -/
def Answer.commit : Answer → Answer
  | .committed inner => .committed inner
  | a => .committed (.ready a)

/-- Whether an answer is there without any demand. -/
def Suspended.isReady : Suspended → Bool
  | .ready _ => true
  | .apply p _ => p.isImmediate
  | _ => false

/-- The success of a list that starts at node `n`. -/
def Answer.ofList (n : Nat) : Answer :=
  .success {
    rest := .later do return (← Act.endOf n).rest
    value := .known (.list n)
    finish := some (.later do return (← Act.endOf n).finish) }

/-! ## Work on something that is kept -/

/-- A computation that works on something of type `φ`, leaves it further computed than it was, and may halt. What it
has done by then is kept. -/
def Hold (φ α : Type) : Type := φ → World → Except Halt α × φ × World

namespace Hold

variable {φ ψ α β : Type}

/-- Goes on after an answer. -/
@[inline] def bind (x : Hold φ α) (f : α → Hold φ β) : Hold φ β := fun s w =>
  match x s w with
  | (.ok a, s, w) => f a s w
  | (.error e, s, w) => (.error e, s, w)

@[always_inline] instance : Monad (Hold φ) where
  pure a := fun s w => (.ok a, s, w)
  bind := Hold.bind

/-- What is worked on, as it now stands. -/
@[inline] def get : Hold φ φ := fun s w => (.ok s, s, w)

/-- Replaces what is worked on. -/
@[inline] def set (s : φ) : Hold φ Unit := fun _ w => (.ok (), s, w)

/-- A run that does not touch what is worked on. -/
@[inline] def lift (x : Run α) : Hold φ α := fun s w =>
  match x w with
  | (r, w) => (r, s, w)

/-- Works on a part `x`; `wrap` puts it back in its place. -/
@[inline] def within (wrap : ψ → φ) (x : ψ) (m : Hold ψ α) : Hold φ α := fun _ w =>
  match m x w with
  | (r, x, w) => (r, wrap x, w)

/-- Works on `x` and forgets it. -/
@[inline] def on (x : φ) (m : Hold φ α) : Run α := fun w =>
  match m x w with
  | (r, _, w) => (r, w)

end Hold

end CommittedChoice.OnDemand

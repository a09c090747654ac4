import CommittedChoice.OnDemand.Session
import CommittedChoice.Strict

/-!
# Engines

The four ways to run a parser: strictly or on demand, with or without a threaded state.

- `parse`: a success or a failure; whether it was committed does not show. A failure is traced;
- `parseAll`: the same for the whole input, where a failure and tokens that are left are faults.
-/

namespace CommittedChoice

/-- A way to run a parser. -/
structure Engine where
  onDemand : Bool
  stateful : Bool

namespace Engine

/-- The name of an engine in traces. -/
def scope (e : Engine) : String :=
  (if e.onDemand then "lazy" else "eager") ++ (if e.stateful then "-state" else "")

/-- What a run of this engine knows. -/
def env (e : Engine) (grammar : Grammar) (settings : Settings) : Env := ⟨grammar, settings, e.scope, e.stateful⟩

variable (e : Engine) (env : Env) (fuel : Nat)

/-- A success or a failure. -/
def verdict (p : Parser) (z : Context) : Run (Verdict Context Value) :=
  if e.onDemand then (OnDemand.means env fuel).verdict fuel p z
  else do return (← Strict.run env fuel p z).verdict

/-- A success or a failure, traced if it is a failure. -/
def parse (p : Parser) (z : Context) : Run (Verdict Context Value) := do
  match ← e.verdict env fuel p z with
  | .failure rest message =>
    env.trace ("parse failed at token " ++ Number.intText rest.input.offset ++ ": " ++ message)
    pure (.failure rest message)
  | .success rest v => pure (.success rest v)

/-- The value and the state after the whole input. -/
def parseAll (p : Parser) (z : Context) : Run (Value × Value) := do
  match ← e.parse env fuel p z with
  | .failure rest message => Run.fault (.parse message (.whole rest.input.offset))
  | .success rest v =>
    match ← Run.next? rest.input with
    | some _ => Run.fault (.parse Message.tokensLeft (.whole rest.input.offset))
    | none => pure (v, rest.state)

end Engine

/-- Reads what is left to its end, the newest token first in `done`. -/
def Run.drain : Nat → Remainder → List Value → Run (List Value)
  | 0, _, _ => Run.halt .outOfFuel
  | fuel + 1, s, done => do
    match ← Run.next? s with
    | none => pure done.reverse
    | some (t, rest) => drain fuel rest (t :: done)

end CommittedChoice

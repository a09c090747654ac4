import CommittedChoice.Number.Basic

/-!
# Faults

What stops a computation other than a parse failure: an exception of a callback, of the token source or of a driver.
A fault is a cause; `kind` and `message` give its wording.
-/

namespace CommittedChoice

/-- Why a computation stopped. -/
inductive Fault where
  /-- A callback threw. -/
  | raised (message : String)
  /-- The token source threw at this call. -/
  | source (call : Nat)
  /-- A memoized computation asked for its own value. -/
  | reentered
  /-- A computation that is not ready yet. -/
  | notReady (name : String)
  /-- A parse that had to succeed did not, at this offset. -/
  | parse (reason : String) (offset : Number)
  /-- A text cannot be repeated this often. -/
  | count (n : Number)
  /-- A text would be longer than texts can be. -/
  | tooLong
  /-- A value is not of the kind that an operation needs. -/
  | mistyped (message : String)

namespace Fault

/-- The kind of a fault. -/
def kind : Fault → String
  | .parse _ _ => "ParseError"
  | .count _ | .tooLong => "RangeError"
  | .mistyped _ => "TypeError"
  | _ => "Error"

/-- The wording of a fault. -/
def message : Fault → String
  | .raised m => m
  | .source k => "source failed at pull " ++ Number.intText k
  | .reentered => "Lazy value forced again while it was being computed"
  | .notReady name => name ++ " not ready"
  | .parse reason offset => "Parse error at token " ++ offset.text ++ ": " ++ reason
  | .count n => "Invalid count value: " ++ n.text
  | .tooLong => "Invalid string length"
  | .mistyped m => m

end Fault

end CommittedChoice

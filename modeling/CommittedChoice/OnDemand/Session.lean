import CommittedChoice.OnDemand.Force

/-!
# Using answers

Demands that a reader makes of an answer it holds. Each demand leaves the answer further computed, and repeating a
demand does nothing new.

- `settled`, `disclosed`, `fully`: the answer without its commitment, with its finish disclosed, and both;
- `onPromise`: a demand for a part of a success;
- `verdict`: everything, which is what a parse returns;
- `Reader`: the items of a list one at a time, then what is left after them.
-/

namespace CommittedChoice.OnDemand

namespace Means

variable (m : Means) (fuel : Nat)

/-- The answer without its commitment. The answer itself keeps it. -/
def settled : Hold Answer Settled := do
  match ← Hold.get with
  | .success p => pure (.success p)
  | .failure z message => pure (.failure z message)
  | .committed inner => Hold.within .committed inner (m.settle fuel)

/-- A success that shows whether it is committed or failed. -/
def disclosedPromise : Hold Promise Answer := do
  let finish ← Promise.disclose m.env m.lists
  let p ← Hold.get
  match finish with
  | .plain => pure (.success p.disclosed)
  | .committed => pure (.committed (.ready (.success p.disclosed)))
  | .failed z message => pure (.committed (.ready (.failure z message)))

/-- The answer with its finish disclosed. -/
def disclosed : Hold Answer Answer := do
  match ← Hold.get with
  | .success p => Hold.within .success p m.disclosedPromise
  | a => pure a

/-- Works on the success that an answer settles to, if it does. -/
def onPromise {α : Type} (f : Hold Promise α) : Hold Answer (Option α) := do
  match ← m.settled fuel with
  | .failure _ _ => pure none
  | .success p =>
    match ← Hold.get with
    | .committed _ => some <$> Hold.within (fun p => .committed (.ready (.success p))) p f
    | _ => some <$> Hold.within .success p f

/-- The answer without its commitment and with its finish disclosed. Nothing is left to be disclosed in it. -/
def fully : Hold Answer Settled := do
  match ← m.settled fuel with
  | .failure z message => pure (.failure z message)
  | .success _ =>
    match ← m.onPromise fuel (do return (← Promise.disclose m.env m.lists, ← Hold.get)) with
    | some (.failed z message, _) => pure (.failure z message)
    | some (_, p) => pure (.success p.disclosed)
    | none => m.settled fuel

/-- Works on the answer of a suspended parser. -/
def onAnswer {α : Type} (f : Hold Answer α) : Hold Suspended α := do
  let a ← m.force
  Hold.within .ready a f

/-- Computes everything. A stateful parse asks for the remainder before the value. -/
def verdict (p : Parser) (z : Context) : Run (Verdict Context Value) := do
  match ← Hold.on (.apply p z) (m.onAnswer (m.fully fuel)) with
  | .failure z message => pure (.failure z message)
  | .success promise =>
    if m.env.stateful then
      Hold.on promise do
        let z ← Promise.forceRest m.env m.lists
        let v ← Promise.forceValue m.env m.lists
        pure (.success z v)
    else
      Hold.on promise do
        let v ← Promise.forceValue m.env m.lists
        let z ← Promise.forceRest m.env m.lists
        pure (.success z v)

end Means

/-! ## Reading items one at a time -/

/-- Where a reader of items stands. -/
inductive Reader where
  | unstarted (p : Parser) (z : Context)
  | at (node : Nat)
  | finished

/-- What a reader gets. -/
inductive Reading where
  | item (v : Value)
  | leftover (z : Context)
  | over

namespace Reader

variable (m : Means)

/-- Reads the node that the reader has come to. A reader that meets a fault is finished. -/
def read (i : Nat) : Hold Reader Reading := fun _ w =>
  match m.lists.node i w with
  | (.error e, w) => (.error e, .finished, w)
  | (.ok (.item v next), w) => (.ok (.item v), .at next, w)
  | (.ok (.ended e), w) =>
    match e.fault? with
    | some fault => (.error (.fault fault), .finished, w)
    | none => (.ok (.leftover e.rest), .finished, w)

/-- The next item, or what is left after the last one. -/
def next : Hold Reader Reading := do
  match ← Hold.get with
  | .finished => pure .over
  | .at i => read m i
  | .unstarted p z =>
    let i ← Hold.lift (Means.makeList ⟨p, z, false⟩)
    read m i

/-- Gives up the rest of the items. -/
def close : Hold Reader Reading := do
  Hold.set .finished
  pure .over

end Reader

end CommittedChoice.OnDemand

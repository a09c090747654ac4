import CommittedChoice.OnDemand.Answer

/-!
# The on-demand engine

Applying a parser does no work; asking for its answer runs just enough of it to tell a success from a failure or a
commitment.

- `force`: the answer of a suspended parser. Whatever was computed on the way is kept, also when the run is interrupted
  by a fault, so asking again goes on from there. What stands after a parser in `bind`, the second alternative of a
  choice, a loop and a list item start from their beginning instead;
- `settle`: the answer without its commitment;
- `node`: one node of a list. Each node is computed once;
- `Promise.disclose`: the finish of a success that may turn out to be committed or to have failed.
-/

namespace CommittedChoice.OnDemand

/-! ## Parts of a success -/

/-- The value of something late. -/
def Late.force {α : Type} (env : Env) (lists : Lists) : Late α → World → Except Halt α × Late α × World
  | .known a, w => (.ok a, .known a, w)
  | .later act, w =>
    match act.exec env lists w with
    | (.ok a, w) => (.ok a, .known a, w)
    | (.error e, w) => (.error e, .later act, w)
  | .mapped l f, w =>
    match l.force env lists w with
    | (.error e, l, w) => (.error e, .mapped l f, w)
    | (.ok a, l, w) =>
      match (f a).exec env lists w with
      | (.ok b, w) => (.ok b, .known b, w)
      | (.error e, w) => (.error e, .mapped l f, w)

namespace Promise

/-- The context after the success. -/
def forceRest (env : Env) (lists : Lists) : Hold Promise Context := fun p w =>
  match p.rest.force env lists w with
  | (r, l, w) => (r, { p with rest := l }, w)

/-- The value of the success. -/
def forceValue (env : Env) (lists : Lists) : Hold Promise Value := fun p w =>
  match p.value.force env lists w with
  | (r, l, w) => (r, { p with value := l }, w)

/-- What the success turns out to be; `plain` if it cannot turn out to be anything else. -/
def disclose (env : Env) (lists : Lists) : Hold Promise Finish := fun p w =>
  match p.finish with
  | none => (.ok .plain, p, w)
  | some l =>
    match l.force env lists w with
    | (r, l, w) => (r, { p with finish := some l }, w)

/-- The success once it is known what it turned out to be. -/
def disclosed (p : Promise) : Promise := { p with finish := none }

/-- Changes the failure that a success may turn out to be. -/
def onFailure (p : Promise) (f : Context → String → Act (Context × String)) : Promise :=
  { p with finish := p.finish.map fun l => .mapped l fun
      | .failed z message => do
        let (z, message) ← f z message
        return .failed z message
      | finish => .pure finish }

end Promise

/-! ## Frames -/

/-- How to force a suspended parser and how to read lists. -/
structure Means where
  env : Env
  lists : Lists
  force : Hold Suspended Answer

namespace Means

variable (m : Means)

/-- What a callback does. -/
@[inline] def exec {α : Type} (act : Act α) : Run α := act.exec m.env m.lists

/-- The answer of a parser that is applied anew. -/
@[inline] def fresh (p : Parser) (z : Context) : Run Answer := Hold.on (.apply p z) m.force

/-- The answer without its commitment; `fuel` bounds how many commitments are nested. -/
def settle : Nat → Hold Suspended Settled
  | 0 => Hold.lift (Run.halt .outOfFuel)
  | fuel + 1 => do
    match ← m.force with
    | .success p => pure (.success p)
    | .failure z message => pure (.failure z message)
    | .committed inner =>
      let s ← Hold.within (fun inner => .ready (.committed inner)) inner (settle fuel)
      Hold.set (.ready s.toAnswer)
      pure s

/-- Goes on after a success. If it turns out to be committed, going on is left for later. -/
def bindPromise (k : Value → Act Parser) : Hold Promise Answer := do
  match ← Promise.disclose m.env m.lists with
  | .plain =>
    let z ← Promise.forceRest m.env m.lists
    let v ← Promise.forceValue m.env m.lists
    Hold.lift do
      let q ← m.exec (k v)
      m.fresh q z
  | .committed =>
    let p ← Hold.get
    pure (.committed (.framed (.ready (.success p.disclosed)) (.bind k)))
  | .failed z message => pure (.committed (.ready (.failure z message)))

/-! ### Loops -/

/-- What one turn of a loop leads to. -/
inductive Turn where
  | finished (a : Answer)
  | again (state : Value) (z : Context)

/-- One turn that succeeded. A first commitment ends the turns here; they go on under it, where `committed` holds. -/
def turnPromise (step : Value → Act Parser) (committed : Bool) : Hold Promise Turn := do
  let finish ← Promise.disclose m.env m.lists
  match finish, committed with
  | .failed z message, true => pure (.finished (.failure z message))
  | .failed z message, false => pure (.finished (.committed (.ready (.failure z message))))
  | .committed, false =>
    let p ← Hold.get
    pure (.finished (.committed (.framed (.ready (.success p.disclosed)) (.loop step))))
  | _, _ =>
    let v ← Promise.forceValue m.env m.lists
    match v.toStep with
    | .done value =>
      let p ← Hold.get
      pure (.finished (.success { rest := p.rest, value := .known value }))
    | .again state =>
      let z ← Promise.forceRest m.env m.lists
      pure (.again state z)

/-- One turn of a loop. -/
def turn (fuel : Nat) (step : Value → Act Parser) (committed : Bool) : Hold Answer Turn := do
  match ← Hold.get with
  | .failure z message => pure (.finished (.failure z message))
  | .success p => Hold.within .success p (m.turnPromise step committed)
  | .committed inner =>
    if committed then
      Hold.within .committed inner do
        match ← m.settle fuel with
        | .failure z message => pure (.finished (.failure z message))
        | .success p => Hold.within (fun p => .ready (.success p)) p (m.turnPromise step true)
    else pure (.finished (.committed (.framed inner (.loop step))))

/-- Turns of a loop from a state and a context on. -/
def turns (step : Value → Act Parser) (committed : Bool) : Nat → Value → Context → Run Answer
  | 0, _, _ => Run.halt .outOfFuel
  | fuel + 1, state, z => do
    let p ← m.exec (step state)
    let a ← m.fresh p z
    match ← Hold.on a (m.turn fuel step committed) with
    | .finished a => pure a
    | .again state z => turns step committed fuel state z

/-! ### All frames -/

/-- What a frame makes of an answer. -/
def resume (fuel : Nat) : Frame → Hold Answer Answer
  | .bind k => do
    match ← Hold.get with
    | .failure z message => pure (.failure z message)
    | .success p => Hold.within .success p (m.bindPromise k)
    | .committed inner => pure (.committed (.framed inner (.bind k)))
  | .map f => do
    match ← Hold.get with
    | .failure z message => pure (.failure z message)
    | .success p => pure (.success { p with value := .mapped p.value f })
    | .committed inner => pure (.committed (.framed inner (.map f)))
  | .reword f => do
    match ← Hold.get with
    | .failure z message =>
      let message ← Hold.lift (m.exec (f message))
      pure (.failure z message)
    | .success p => pure (.success (p.onFailure fun z message => do return (z, ← f message)))
    | .committed inner => pure (.committed (.framed inner (.reword f)))
  | .restoring state => do
    match ← Hold.get with
    | .failure z message => pure (.failure { z with state := state } message)
    | .success p => pure (.success (p.onFailure fun z message => .pure ({ z with state := state }, message)))
    | .committed inner => pure (.committed (.framed inner (.restoring state)))
  | .orElse q z => do
    match ← Hold.get with
    | .failure _ _ => Hold.lift (m.fresh q z)
    | a => pure a
  | .loop step => do
    match ← m.turn fuel step true with
    | .finished a => pure a
    | .again state z => Hold.lift (m.turns step true fuel state z)

/-! ## Primitives -/

/-- Tries labelled alternatives in the context `z`, with the failures so far, newest first. -/
def alternatives (z : Context) : List (String × String) → List (String × Parser) → Run Answer
  | failures, [] => do
    return .failure z (← Run.ofExcept (Message.choiceReport m.env.settings.indent failures.reverse))
  | failures, (label, p) :: rest => do
    match ← m.fresh p z with
    | .failure _ message =>
      m.env.trace ("alternative \"" ++ label ++ "\" failed: " ++ message)
      alternatives z ((label, message) :: failures) rest
    | a => pure a

/-- Makes a list whose first node waits, and gives the number of that node. -/
def makeList (u : Unparsed) : Run Nat := fun w =>
  (.ok (nodeNumber w.lists.size 0), w.updateLists fun lists => lists.push #[.pending u])

/-- Adds a node that waits to a list, and gives its number. -/
def addNode (l : Nat) (u : Unparsed) : Run Nat := fun w =>
  match (World.listNodes l).add (.pending u) w with
  | (i, w) => (.ok (nodeNumber l i), w)

/-- The answer of a parser that is not made of frames. -/
def primitive (fuel : Nat) (p : Parser) (z : Context) : Run Answer :=
  match p with
  | .pure v => pure (.known z v)
  | .fail message => pure (.failure z message)
  | .commit p => pure (.committed (.afresh p z))
  | .loop init step => m.turns step false fuel init z
  | .choice ps => m.alternatives z [] ps
  | .next => do
    match ← Run.next? z.input with
    | none => pure (.failure z Message.noTokenLeft)
    | some (t, rest) => pure (.known { z with input := rest } t)
  | .eof => do
    match ← Run.next? z.input with
    | none => pure (.known z .absent)
    | some _ => pure (.failure z Message.tokensLeft)
  | .satisfy test => do
    match ← Run.next? z.input with
    | none => pure (.failure z Message.noTokenLeft)
    | some (t, rest) =>
      if ← m.exec (test t) then pure (.known { z with input := rest } t)
      else return .failure z (← Run.ofExcept (Message.unexpected t))
  | .pushBack ts => pure (.known { z with input := z.input.push ts } .absent)
  | .position => pure (.known z (.nat z.input.consumed))
  | .get => pure (.known z z.state)
  | .put state => pure (.known { z with state := state } .absent)
  | .stream p => do
    let i ← makeList ⟨p, z, false⟩
    pure (.ofList i)
  | .rule name => m.fresh (m.env.grammar name) z
  | .map .. | .bind .. | .orElse .. | .reword .. | .restoring .. => m.fresh p z

/-! ## List nodes -/

/-- The item before node `next`. That of a stateful list carries the state it was produced in. -/
def emit (v : Value) (z : Context) (next : Nat) : Value :=
  if m.env.stateful then .record (.item next) [("value", v), ("state", z.state)] else v

/-- The node of list `l` of an item that succeeded. -/
def nodeOfPromise (l : Nat) (u : Unparsed) (committed : Bool) : Hold Promise Node := do
  match ← Promise.disclose m.env m.lists with
  | .failed z message => pure (.ended ⟨u.start, .failed z message⟩)
  | finish =>
    let committed := match finish with
      | .committed => true
      | _ => committed
    let z ← Promise.forceRest m.env m.lists
    if z.input.consumed = u.start.input.consumed then
      pure (.ended ⟨u.start, if committed then .committed else .plain⟩)
    else
      let v ← Promise.forceValue m.env m.lists
      let next ← Hold.lift (addNode l ⟨u.item, z, committed⟩)
      pure (.item (m.emit v z next) next)

/-- Parses one item of list `l`. The list ends at a failure, or before an item that consumed nothing. -/
def computeNode (fuel l : Nat) (u : Unparsed) : Run Node := do
  match ← m.fresh u.item u.start with
  | .failure _ _ => pure (.ended ⟨u.start, if u.committed then .committed else .plain⟩)
  | .success p => Hold.on p (m.nodeOfPromise l u u.committed)
  | .committed inner =>
    match ← Hold.on inner (m.settle fuel) with
    | .failure z message => pure (.ended ⟨u.start, .failed z message⟩)
    | .success p => Hold.on p (m.nodeOfPromise l u true)

end Means

/-! ## The engine -/

/-- Reads a list from a node to its end, the newest item first in `done`. -/
def walk (node : Nat → Run Node) : Nat → Nat → List Value → Run (List Value × ListEnd)
  | 0, _, _ => Run.halt .outOfFuel
  | fuel + 1, i, done => do
    match ← node i with
    | .item v next => walk node fuel next (v :: done)
    | .ended e => pure (done.reverse, e)

/-- Reading lists, given how to read a node. -/
def listsOf (fuel : Nat) (node : Nat → Run Node) : Lists where
  node := node
  walk i := walk node fuel i []

mutual

/-- The answer of a suspended parser. -/
def force (env : Env) : Nat → Suspended → World → Except Halt Answer × Suspended × World
  | 0, s, w => (.error .outOfFuel, s, w)
  | n + 1, s, w =>
    match s with
    | .ready a => (.ok a, .ready a, w)
    | .apply p z =>
      match p with
      | .map p f => force env n (.framed (.apply p z) (.map f)) w
      | .bind p k => force env n (.framed (.apply p z) (.bind k)) w
      | .orElse p q => force env n (.framed (.apply p z) (.orElse q z)) w
      | .reword p f => force env n (.framed (.apply p z) (.reword f)) w
      | .restoring p => force env n (.framed (.apply p z) (.restoring z.state)) w
      | p =>
        match Means.primitive ⟨env, listsOf n (node env n), force env n⟩ n p z w with
        | (.ok a, w) => (.ok a, .ready a, w)
        | (.error e, w) => (.error e, .apply p z, w)
    | .afresh p z =>
      match force env n (.apply p z) w with
      | (.ok a, _, w) => (.ok a, .ready a, w)
      | (.error e, _, w) => (.error e, .afresh p z, w)
    | .after act s =>
      match act.exec env (listsOf n (node env n)) w with
      | (.ok _, w) => force env n s w
      | (.error e, w) => (.error e, .after act s, w)
    | .framed s f =>
      match force env n s w with
      | (.error e, s, w) => (.error e, .framed s f, w)
      | (.ok a, _, w) =>
        match Means.resume ⟨env, listsOf n (node env n), force env n⟩ n f a w with
        | (.ok b, _, w) => (.ok b, .ready b, w)
        | (.error e, a, w) => (.error e, .framed (.ready a) f, w)

/-- One node of a list. -/
def node (env : Env) : Nat → Nat → World → Except Halt Node × World
  | 0, _, w => (.error .outOfFuel, w)
  | n + 1, i, w =>
    if placeOf i < (w.nodesOf (listOf i)).size then
      (World.listNodes (listOf i)).force (Means.computeNode ⟨env, listsOf n (node env n), force env n⟩ n (listOf i))
        (.fault .reentered) (placeOf i) w
    else (.error (.fault Lists.missing), w)

end

/-- The means that `n` units of fuel give. -/
def means (env : Env) (n : Nat) : Means := ⟨env, listsOf n (node env n), force env n⟩

end CommittedChoice.OnDemand

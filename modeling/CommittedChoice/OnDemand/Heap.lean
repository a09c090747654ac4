import CommittedChoice.OnDemand.Force

/-!
# The on-demand engine in cells

The engine once more, with every part of an outcome in a memoized cell that whoever holds its number shares. `Answer` and
`Suspended` own what is still to be done for them; here it is in the tasks of cells, which refer to other cells. A parse that
ends on demand ends in cells, with the same verdict and in the same world (`Heap.verdict_of_ends`).

- `Heap`: the cells of outcomes, of the outcomes under commitments, of values, remainders and what successes turn out to be,
  of the ends of lists, and of the links by which lists are read. The nodes of lists are in the world;
- `Heap.Task`, `Heap.Content`: what a cell has to do, and what is in it then;
- `Access`: how cells are forced and lists are read. What is made of it is the algebra of outcomes (`commit`, `settle`,
  `reveal`, `settleAll`, `resume`), the application of parsers (`apply`), which does no work, and what each task comes to
  (`compute`);
- `Heap.force`, `Heap.node`, `Heap.link`: cells forced, nodes computed and links followed, each of them once. One that is
  asked for while it is being computed is refused;
- `Heap.verdict`: everything, which is what a parse returns.
-/

namespace CommittedChoice

namespace Heap

open OnDemand (Frame)

/-- An outcome that is not committed. The remainder and the value of a success are in cells, and so is what it turns out to
be, if it can turn out to be committed or to have failed. -/
inductive Settled where
  | success (rest value : Nat) (finish : Option Nat)
  | failure (rest : Context) (message : String)

/-- An outcome. What is under a commitment is in a cell. -/
inductive Outcome where
  | plain (s : Settled)
  | committed (inner : Nat)

/-- What a cell has to do. -/
inductive Task where
  /-- Runs a parser that has no outcome before it is asked. -/
  | primitive (p : Parser) (z : Context)
  /-- Applies a parser, and asks for its outcome. -/
  | afresh (p : Parser) (z : Context)
  /-- Does with the outcome in a cell what a frame does, `under` a commitment or not. -/
  | framed (under : Bool) (outcome : Nat) (f : Frame)
  /-- Settles the outcome in a cell. -/
  | settled (outcome : Nat)
  | pushed (z : Context) (ts : List Value)
  | mapped (value : Nat) (f : Value → Act Value)
  /-- Changes the failure that a success may turn out to be. -/
  | changed (finish : Nat) (f : Context → String → Act (Context × String))
  /-- Walks a list from a node to its end. -/
  | walked (node : Nat)
  /-- What is left at the end of a list. -/
  | restOf (ended : Nat)
  /-- What the end of a list makes of the success of the list. -/
  | finishOf (ended : Nat)

/-- What is in a cell. -/
inductive Content where
  | outcome (o : Outcome)
  | value (v : Value)
  | rest (z : Context)
  | finish (f : Finish)
  | ended (e : ListEnd)

namespace Content

def outcome? : Content → Option Outcome
  | .outcome o => some o
  | _ => none

def value? : Content → Option Value
  | .value v => some v
  | _ => none

def rest? : Content → Option Context
  | .rest z => some z
  | _ => none

def finish? : Content → Option Finish
  | .finish f => some f
  | _ => none

def ended? : Content → Option ListEnd
  | .ended e => some e
  | _ => none

end Content

end Heap

/-- Cells, and the links of each list: a link is what a reader follows to a node. There is one for each node. -/
structure Heap where
  cells : Array (Cell Heap.Task Heap.Content) := #[]
  links : Array (Array (Cell Unit Node)) := #[]

namespace Heap

open OnDemand

/-- The links of a list; a list that was never made has none. -/
@[inline] def linksOf (h : Heap) (l : Nat) : Array (Cell Unit Node) := h.links[l]?.getD #[]

theorem linksOf_push (h : Heap) (links : Array (Cell Unit Node)) (l : Nat) :
    ({ h with links := h.links.push links }).linksOf l = if l = h.links.size then links else h.linksOf l := by
  show (h.links.push links)[l]?.getD #[] = _
  rw [Array.getElem?_push]
  split <;> rfl

theorem linksOf_modify (h : Heap) (l l' : Nat) (f : Array (Cell Unit Node) → Array (Cell Unit Node)) :
    ({ h with links := h.links.modify l f }).linksOf l' =
      if l = l' ∧ l < h.links.size then f (h.linksOf l') else h.linksOf l' := by
  show (h.links.modify l f)[l']?.getD #[] = _
  rw [Array.getElem?_modify]
  unfold linksOf
  by_cases hl : l = l'
  · subst hl
    rw [if_pos rfl]
    by_cases hlt : l < h.links.size
    · rw [if_pos ⟨rfl, hlt⟩, Array.getElem?_eq_getElem hlt]
      rfl
    · rw [if_neg fun h => hlt h.2, Array.getElem?_eq_none (Nat.le_of_not_lt hlt)]
      rfl
  · rw [if_neg hl, if_neg fun h => hl h.1]

/-- The cells of a heap beside a world. -/
@[inline] def cellTable : Table (Heap × World) Task Content :=
  ⟨fun s => s.1.cells, fun f s => ({ s.1 with cells := f s.1.cells }, s.2)⟩

/-- The links of one list. -/
@[inline] def linkTable (l : Nat) : Table (Heap × World) Unit Node :=
  ⟨fun s => s.1.linksOf l, fun f s => ({ s.1 with links := s.1.links.modify l f }, s.2)⟩

/-- The nodes of one list. -/
@[inline] def nodeTable (l : Nat) : Table (Heap × World) Unparsed Node :=
  ⟨fun s => (World.listNodes l).cells s.2, fun f s => (s.1, (World.listNodes l).update f s.2)⟩

/-! ## New cells -/

/-- Adds a cell and gives its number. -/
def new (c : Cell Task Content) : Hold Heap Nat := fun h w =>
  (.ok h.cells.size, { h with cells := h.cells.push c }, w)

/-- A cell with something in it. -/
def known (c : Content) : Hold Heap Nat := new (.forced c)

/-- A cell that waits. -/
def waiting (t : Task) : Hold Heap Nat := new (.pending t)

/-- A success all of whose parts are known. -/
def success (z : Context) (v : Value) : Hold Heap Outcome := do
  let rest ← known (.rest z)
  let value ← known (.value v)
  pure (.plain (.success rest value none))

/-- Marks the outcome in a cell as committed, and does not force it; a second commitment changes nothing. -/
def commit (i : Nat) : Hold Heap Outcome := do
  match (← Hold.get).cells[i]? with
  | some (.forced (.outcome (.committed inner))) => pure (.committed inner)
  | some (.forced c) => return .committed (← known c)
  | _ => return .committed (← waiting (.settled i))

/-- Leaves what a frame does with the outcome under a commitment for later. -/
def postpone (inner : Nat) (f : Frame) : Hold Heap Outcome := do
  commit (← waiting (.framed true inner f))

/-- Changes the failure that a success may turn out to be. -/
def change (f : Context → String → Act (Context × String)) : Option Nat → Hold Heap (Option Nat)
  | none => pure none
  | some finish => return some (← waiting (.changed finish f))

/-- Makes a list whose first node and first link wait. -/
def makeList (u : Unparsed) : Hold Heap Nat := do
  let i ← Hold.lift (Means.makeList u)
  let h ← Hold.get
  Hold.set { h with links := h.links.push #[.pending ()] }
  pure i

/-- Adds a node that waits to a list, and a link to it, and gives its number. -/
def addNode (l : Nat) (u : Unparsed) : Hold Heap Nat := do
  let i ← Hold.lift (Means.addNode l u)
  let h ← Hold.get
  Hold.set { h with links := h.links.modify l fun links => links.push (.pending ()) }
  pure i

/-- The success of a list, whose items are parsed as they are asked for. -/
def list (p : Parser) (z : Context) : Hold Heap Outcome := do
  let i ← makeList ⟨p, z, false⟩
  let ended ← waiting (.walked i)
  let rest ← waiting (.restOf ended)
  let finish ← waiting (.finishOf ended)
  let value ← known (.value (.list i))
  pure (.plain (.success rest value (some finish)))

/-! ## Parsers -/

/-- Applies a parser: gives the cell of its outcome. -/
def apply (grammar : Grammar) : Parser → Context → Hold Heap Nat
  | .pure v, z => do known (.outcome (← success z v))
  | .fail message, z => known (.outcome (.plain (.failure z message)))
  | .map p f, z => do waiting (.framed false (← apply grammar p z) (.map f))
  | .bind p k, z => do waiting (.framed false (← apply grammar p z) (.bind k))
  | .orElse p q, z => do waiting (.framed false (← apply grammar p z) (.orElse q z))
  | .reword p f, z => do waiting (.framed false (← apply grammar p z) (.reword f))
  | .restoring p, z => do waiting (.framed false (← apply grammar p z) (.restoring z.state))
  | .commit p, z => do known (.outcome (← commit (← waiting (.afresh p z))))
  | .pushBack ts, z => do
    let rest ← waiting (.pushed z ts)
    let value ← known (.value .absent)
    known (.outcome (.plain (.success rest value none)))
  | .position, z => do known (.outcome (← success z (.nat z.input.consumed)))
  | .get, z => do known (.outcome (← success z z.state))
  | .put state, z => do known (.outcome (← success { z with state := state } .absent))
  | .stream p, z => do known (.outcome (← list p z))
  | .rule name, z => do
    let start ← known (.outcome (← success z .absent))
    waiting (.framed false start (.bind fun _ => .pure (grammar name)))
  | p, z => waiting (.primitive p z)

end Heap

/-! ## Demands -/

open Heap OnDemand

/-- How cells are forced and lists are read: their nodes, and the links to them. The fuel bounds loops. -/
structure Access where
  env : Env
  fuel : Nat
  force : Nat → Hold Heap Content
  node : Nat → Hold Heap Node
  link : Nat → Hold Heap Node

namespace Access

/-- What there is in a cell of the wrong kind. No cell is asked for what is not in it. -/
def misplaced : Fault := .mistyped "no such part"

/-- Reads a list from a node to its end, the newest item first in `done`. -/
def walk (node : Nat → Hold Heap Node) : Nat → Nat → List Value → Hold Heap (List Value × ListEnd)
  | 0, _, _ => Hold.lift (Run.halt .outOfFuel)
  | fuel + 1, i, done => do
    match ← node i with
    | .item v next => walk node fuel next (v :: done)
    | .ended e => pure (done.reverse, e)

variable (m : Access)

/-- A part of what is in a cell. -/
def get {α : Type} (part : Content → Option α) (i : Nat) : Hold Heap α := do
  match part (← m.force i) with
  | some a => pure a
  | none => Hold.lift (Run.fault misplaced)

/-- What a callback does. It reads lists by their links. -/
def exec {α : Type} : Act α → Hold Heap α
  | .pure a => pure a
  | .throw e => Hold.lift (Run.fault e)
  | .note id next => do
    Hold.lift (Run.note id)
    exec next
  | .width k => exec (k m.env.settings.indent)
  | .count mark k => do
    let c ← Hold.lift (Run.count mark)
    exec (k c)
  | .fresh k => do
    let id ← Hold.lift Run.identity
    exec (k id)
  | .node i k => do
    let x ← m.link i
    exec (k x)
  | .walk i k => do
    let x ← walk m.link m.fuel i []
    exec (k x.1 x.2)

/-- The outcome of a parser that is applied anew. -/
def fresh (p : Parser) (z : Context) : Hold Heap Outcome := do
  let i ← Heap.apply m.env.grammar p z
  m.get Content.outcome? i

/-! ### Outcomes -/

/-- The outcome without its commitment. -/
def settle : Outcome → Hold Heap Heap.Settled
  | .plain s => pure s
  | .committed inner => do
    match ← m.get Content.outcome? inner with
    | .plain s => pure s
    | .committed _ => Hold.lift (Run.fault misplaced)

/-- The outcome once it is known what a success turns out to be. -/
def reveal : Outcome → Hold Heap Outcome
  | .plain (.success rest value (some finish)) => do
    match ← m.get Content.finish? finish with
    | .plain => pure (.plain (.success rest value none))
    | .committed => do commit (← known (.outcome (.plain (.success rest value none))))
    | .failed z message => do commit (← known (.outcome (.plain (.failure z message))))
  | o => pure o

/-- Both: nothing is left to be disclosed. -/
def settleAll (o : Outcome) : Hold Heap Heap.Settled := do
  match ← m.settle o with
  | .success rest value (some finish) =>
    let o ← m.reveal (.plain (.success rest value (some finish)))
    m.settle o
  | s => pure s

/-- Goes on after a success. Under a commitment, going on is left for later. -/
def proceed (k : Value → Act Parser) : Outcome → Hold Heap Outcome
  | .plain (.success rest value _) => do
    let z ← m.get Content.rest? rest
    let v ← m.get Content.value? value
    let p ← m.exec (k v)
    m.fresh p z
  | .plain (.failure z message) => pure (.plain (.failure z message))
  | .committed inner => postpone inner (.bind k)

/-- One turn of a loop that is known to have succeeded or failed; `again` does the others. -/
def turn (step : Value → Act Parser) (again : Outcome → Hold Heap Outcome) : Heap.Settled → Hold Heap Outcome
  | .failure z message => pure (.plain (.failure z message))
  | .success rest value _ => do
    let v ← m.get Content.value? value
    match v.toStep with
    | .done v =>
      let value ← known (.value v)
      pure (.plain (.success rest value none))
    | .again state =>
      let z ← m.get Content.rest? rest
      let p ← m.exec (step state)
      let o ← m.fresh p z
      again o

/-- The turns of a loop from an outcome on. A first commitment ends them here; they go on under it, where `committed`
holds. -/
def advance (step : Value → Act Parser) (committed : Bool) : Nat → Outcome → Hold Heap Outcome
  | 0, _ => Hold.lift (Run.halt .outOfFuel)
  | fuel + 1, o => do
    match ← m.reveal o, committed with
    | .committed inner, false => postpone inner (.loop step)
    | o, _ =>
      let s ← m.settleAll o
      m.turn step (advance step committed fuel) s

/-- What a frame makes of an outcome, or of the outcome under a commitment. -/
def resume (under : Bool) (f : Frame) (o : Outcome) : Hold Heap Outcome :=
  match f with
  | .bind k => do
    let o ← if under then .plain <$> m.settleAll o else m.reveal o
    m.proceed k o
  | .map g =>
    match o with
    | .plain (.success rest value finish) => do
      let value ← waiting (.mapped value g)
      pure (.plain (.success rest value finish))
    | .plain (.failure z message) => pure (.plain (.failure z message))
    | .committed inner => postpone inner (.map g)
  | .reword g =>
    match o with
    | .plain (.success rest value finish) => do
      let finish ← change (fun z message => do return (z, ← g message)) finish
      pure (.plain (.success rest value finish))
    | .plain (.failure z message) => do
      let message ← m.exec (g message)
      pure (.plain (.failure z message))
    | .committed inner => postpone inner (.reword g)
  | .restoring state =>
    match o with
    | .plain (.success rest value finish) => do
      let finish ← change (fun z message => .pure ({ z with state := state }, message)) finish
      pure (.plain (.success rest value finish))
    | .plain (.failure z message) => pure (.plain (.failure { z with state := state } message))
    | .committed inner => postpone inner (.restoring state)
  | .orElse q z =>
    match o with
    | .plain (.failure _ _) => m.fresh q z
    | o => pure o
  | .loop step => m.advance step under m.fuel o

/-! ### Primitives and lists -/

/-- Tries labelled alternatives in the context `z`, with the failures so far, newest first. -/
def alternatives (z : Context) : List (String × String) → List (String × Parser) → Hold Heap Outcome
  | failures, [] => do
    let report ← Hold.lift (Run.ofExcept (Message.choiceReport m.env.settings.indent failures.reverse))
    pure (.plain (.failure z report))
  | failures, (label, p) :: rest => do
    match ← m.fresh p z with
    | .plain (.failure _ message) =>
      Hold.lift (m.env.trace ("alternative \"" ++ label ++ "\" failed: " ++ message))
      alternatives z ((label, message) :: failures) rest
    | o => pure o

/-- The outcome of a parser that has none before it is asked. -/
def primitive (p : Parser) (z : Context) : Hold Heap Outcome :=
  match p with
  | .loop init step => do
    let o ← success z (.step (.again init))
    m.advance step false m.fuel o
  | .choice ps => m.alternatives z [] ps
  | .next => do
    match ← Hold.lift (Run.next? z.input) with
    | none => pure (.plain (.failure z Message.noTokenLeft))
    | some (t, rest) => success { z with input := rest } t
  | .eof => do
    match ← Hold.lift (Run.next? z.input) with
    | none => success z .absent
    | some _ => pure (.plain (.failure z Message.tokensLeft))
  | .satisfy test => do
    match ← Hold.lift (Run.next? z.input) with
    | none => pure (.plain (.failure z Message.noTokenLeft))
    | some (t, rest) =>
      if ← m.exec (test t) then success { z with input := rest } t
      else
        let message ← Hold.lift (Run.ofExcept (Message.unexpected t))
        pure (.plain (.failure z message))
  | p => m.fresh p z

/-- Parses one item of list `l`. The list ends at a failure, or before an item that consumed nothing. -/
def computeNode (l : Nat) (u : Unparsed) : Hold Heap Node := do
  let o ← m.fresh u.item u.start
  let o ← m.reveal o
  let found := match o with
    | .committed _ => true
    | .plain _ => false
  let committed := u.committed || found
  match ← m.settleAll o with
  | .failure z message =>
    pure (.ended ⟨u.start, if found then .failed z message else if u.committed then .committed else .plain⟩)
  | .success rest value _ =>
    let z ← m.get Content.rest? rest
    if z.input.consumed = u.start.input.consumed then
      pure (.ended ⟨u.start, if committed then .committed else .plain⟩)
    else
      let v ← m.get Content.value? value
      let next ← addNode l ⟨u.item, z, committed⟩
      pure (.item (if m.env.stateful then .record (.item next) [("value", v), ("state", z.state)] else v) next)

/-- What comes of the task of a cell. -/
def compute : Task → Hold Heap Content
  | .primitive p z => .outcome <$> m.primitive p z
  | .afresh p z => .outcome <$> m.fresh p z
  | .framed under i f => do
    let o ← m.get Content.outcome? i
    .outcome <$> m.resume under f o
  | .settled i => do
    let o ← m.get Content.outcome? i
    let s ← m.settle o
    pure (.outcome (.plain s))
  | .pushed z ts => pure (.rest { z with input := z.input.push ts })
  | .mapped i f => do
    let v ← m.get Content.value? i
    .value <$> m.exec (f v)
  | .changed i f => do
    match ← m.get Content.finish? i with
    | .failed z message =>
      let (z, message) ← m.exec (f z message)
      pure (.finish (.failed z message))
    | finish => pure (.finish finish)
  | .walked i => do
    let x ← walk m.node m.fuel i []
    pure (.ended x.2)
  | .restOf i => do return .rest (← m.get Content.ended? i).rest
  | .finishOf i => do return .finish (← m.get Content.ended? i).finish

/-- Follows the link to a node. A list that ended in a failure throws it, and the link is as it was before. -/
def follow (i : Nat) (s : Heap × World) : Except (Halt ⊕ ListEnd) Node × (Heap × World) :=
  match m.node i s.1 s.2 with
  | (.error e, s) => (.error (.inl e), s)
  | (.ok (.item v next), s) => (.ok (.item v next), s)
  | (.ok (.ended e), s) => if e.fault?.isSome then (.error (.inr e), s) else (.ok (.ended e), s)

/-- Computes everything. A stateful parse asks for the remainder before the value. -/
def verdict (p : Parser) (z : Context) : Hold Heap (Verdict Context Value) := do
  let o ← m.fresh p z
  match ← m.settleAll o with
  | .failure z message => pure (.failure z message)
  | .success rest value _ =>
    if m.env.stateful then
      let z ← m.get Content.rest? rest
      let v ← m.get Content.value? value
      pure (.success z v)
    else
      let v ← m.get Content.value? value
      let z ← m.get Content.rest? rest
      pure (.success z v)

end Access

/-! ## The engine -/

namespace Heap

mutual

/-- What is in a cell. -/
def force (env : Env) : Nat → Nat → Hold Heap Content
  | 0, _ => Hold.lift (Run.halt .outOfFuel)
  | n + 1, i => fun h w =>
    if i < h.cells.size then
      let m : Access := ⟨env, n, force env n, node env n, link env n⟩
      cellTable.force (fun t s => m.compute t s.1 s.2) (.fault .reentered) i (h, w)
    else (.error (.fault Access.misplaced), h, w)

/-- One node of a list. -/
def node (env : Env) : Nat → Nat → Hold Heap Node
  | 0, _ => Hold.lift (Run.halt .outOfFuel)
  | n + 1, i => fun h w =>
    if placeOf i < (w.nodesOf (listOf i)).size then
      let m : Access := ⟨env, n, force env n, node env n, link env n⟩
      (nodeTable (listOf i)).force (fun u s => m.computeNode (listOf i) u s.1 s.2) (.fault .reentered) (placeOf i) (h, w)
    else (.error (.fault Lists.missing), h, w)

/-- One node of a list, by the link to it. -/
def link (env : Env) : Nat → Nat → Hold Heap Node
  | 0, _ => Hold.lift (Run.halt .outOfFuel)
  | n + 1, i => fun h w =>
    if placeOf i < (h.linksOf (listOf i)).size then
      let m : Access := ⟨env, n, force env n, node env n, link env n⟩
      match (linkTable (listOf i)).force (fun _ => m.follow i) (.inl (.fault .reentered)) (placeOf i) (h, w) with
      | (.ok x, s) => (.ok x, s)
      | (.error (.inl e), s) => (.error e, s)
      -- the reader is told what was thrown, and says what becomes of it
      | (.error (.inr e), s) => (.ok (.ended e), s)
    else (.error (.fault Lists.missing), h, w)

end

/-- What fuel gives access to. -/
def access (env : Env) (n : Nat) : Access := ⟨env, n, force env n, node env n, link env n⟩

theorem force_succ (env : Env) (n i : Nat) (s : Heap × World) : force env (n + 1) i s.1 s.2 =
    if i < s.1.cells.size then
      cellTable.force (fun t s => (access env n).compute t s.1 s.2) (.fault .reentered) i s
    else (.error (.fault Access.misplaced), s) := rfl

theorem node_succ (env : Env) (n i : Nat) (s : Heap × World) : node env (n + 1) i s.1 s.2 =
    if placeOf i < (s.2.nodesOf (listOf i)).size then
      (nodeTable (listOf i)).force (fun u s => (access env n).computeNode (listOf i) u s.1 s.2) (.fault .reentered)
        (placeOf i) s
    else (.error (.fault Lists.missing), s) := rfl

theorem link_succ (env : Env) (n i : Nat) (s : Heap × World) : link env (n + 1) i s.1 s.2 =
    if placeOf i < (s.1.linksOf (listOf i)).size then
      match (linkTable (listOf i)).force (fun _ => (access env n).follow i) (.inl (.fault .reentered)) (placeOf i) s with
      | (.ok x, s) => (.ok x, s)
      | (.error (.inl e), s) => (.error e, s)
      | (.error (.inr e), s) => (.ok (.ended e), s)
    else (.error (.fault Lists.missing), s) := rfl

/-- No cells, and a link to each node of the lists of a world. -/
def ofLists (w : World) : Heap := { links := w.lists.map fun nodes => nodes.map fun _ => .pending () }

/-- What a parse returns. -/
def verdict (env : Env) (n : Nat) (p : Parser) (z : Context) : Run (Verdict Context Value) := fun w =>
  Hold.on (ofLists w) ((access env n).verdict p z) w

end Heap

end CommittedChoice

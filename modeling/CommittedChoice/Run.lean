import CommittedChoice.Memo
import CommittedChoice.Parser.Basic
import CommittedChoice.Settings

/-!
# Runs

What surrounds a run of a parser, and the monad in which engines run.

- `World`: the feed that is read, the journal of notes and source calls, the console, the lists that are parsed on
  demand, the marks that callbacks count, and the number of values that were given an identity;
- `Env`: the grammar, the settings and the name under which traces appear, none of which change during a run;
- `Run α`: an answer or a `Halt`, and the world after it. The world survives a halt, so what was read stays read;
- `Act.exec`: what a callback does to the world, given how lists are read.
-/

namespace CommittedChoice

/-- Why a run has no answer: a fault, or too little fuel. -/
inductive Halt where
  | fault (e : Fault)
  | outOfFuel

/-- What the journal records: a note of a callback, or a call of the source. -/
inductive Happening where
  | noted (id : String)
  | called

/-- A list node that waits: the item parser, where it starts, and whether an item before it committed. -/
structure Unparsed where
  item : Parser
  start : Context
  committed : Bool

/-- Everything that a run can change. -/
structure World where
  feed : Feed := .empty
  /-- The newest happening first. -/
  journal : List Happening := []
  /-- The newest line first. -/
  console : List Line := []
  /-- The nodes of each list. -/
  lists : Array (Array (Cell Unparsed Node)) := #[]
  marks : List (Nat × Nat) := []
  made : Nat := 0

namespace World

/-- The nodes of a list; a list that was never made has none. -/
@[inline] def nodesOf (w : World) (l : Nat) : Array (Cell Unparsed Node) := w.lists[l]?.getD #[]

/-- Changes the lists. They are taken out of the world first, so that they are changed in place. -/
@[inline] def updateLists (f : Array (Array (Cell Unparsed Node)) → Array (Array (Cell Unparsed Node))) (w : World) :
    World :=
  let lists := w.lists
  let w := { w with lists := #[] }
  { w with lists := f lists }

/-- The nodes of one list of a world. -/
@[inline] def listNodes (l : Nat) : Table World Unparsed Node :=
  ⟨fun w => w.nodesOf l, fun f => updateLists fun lists => lists.modify l f⟩

/-- How often a mark was counted. -/
def countOf (w : World) (mark : Nat) : Nat := (w.marks.lookup mark).getD 0

/-- Counts a mark. -/
def addCount (w : World) (mark : Nat) : World :=
  { w with marks := (mark, w.countOf mark + 1) :: w.marks.filter (fun m => m.1 != mark) }

/-- The notes of the journal, the oldest first. -/
def notes (w : World) : List String :=
  (w.journal.filterMap fun | .noted id => some id | .called => none).reverse

end World

/-- What a run needs to know and does not change. -/
structure Env where
  grammar : Grammar
  settings : Settings
  /-- The name under which traces appear. -/
  scope : String
  /-- Whether items of a list carry the state they were produced in. -/
  stateful : Bool

/-! ## The monad -/

/-- A computation that may change the world and may halt. -/
def Run (α : Type) : Type := World → Except Halt α × World

namespace Run

variable {α β : Type}

/-- Goes on after an answer. -/
@[inline] def bind (x : Run α) (f : α → Run β) : Run β := fun w =>
  match x w with
  | (.ok a, w) => f a w
  | (.error e, w) => (.error e, w)

@[always_inline] instance : Monad Run where
  pure a := fun w => (.ok a, w)
  bind := Run.bind

/-- Stops. -/
@[inline] def halt (h : Halt) : Run α := fun w => (.error h, w)

/-- Stops with a fault. -/
@[inline] def fault (e : Fault) : Run α := halt (.fault e)

/-- Answers, or stops with a fault. -/
@[inline] def ofExcept (x : Except Fault α) : Run α := fun w => (x.mapError .fault, w)

/-- Changes the world. -/
@[inline] def modify (f : World → World) : Run Unit := fun w => (.ok (), f w)

/-- Reads the world. -/
@[inline] def read (f : World → α) : Run α := fun w => (.ok (f w), w)

/-- Writes a note to the journal. -/
def note (id : String) : Run Unit := modify fun w => { w with journal := .noted id :: w.journal }

/-- Prints lines. -/
def print (lines : List Line) : Run Unit := modify fun w => { w with console := lines.reverse ++ w.console }

/-- Counts under a mark, and tells how often that was done before. -/
def count (mark : Nat) : Run Nat := fun w => (.ok (w.countOf mark), w.addCount mark)

/-- An identity that no other value has. -/
def identity : Run Identity := fun w => (.ok (.made w.made), { w with made := w.made + 1 })

/-- The first token and what is left after it. A call of the source is recorded. The feed is taken out of the world
first, so that it is changed in place. -/
def next? (s : Remainder) : Run (Option (Value × Remainder)) := fun w =>
  let calls := w.feed.calls
  let feed := w.feed
  let w := { w with feed := .empty }
  match s.next? feed with
  | (answer, feed) =>
    let journal := if feed.calls = calls then w.journal else .called :: w.journal
    (answer.mapError .fault, { w with feed := feed, journal := journal })

end Run

/-! ## Callbacks -/

/-- How lists are read: one node, or all items from a node on. -/
structure Lists where
  node : Nat → Run Node
  walk : Nat → Run (List Value × ListEnd)

/-- What reading a list that does not exist comes to. -/
def Lists.missing : Fault := .mistyped "no list"

/-- No lists. -/
def Lists.none : Lists where
  node _ := Run.fault missing
  walk _ := Run.fault missing

/-- What a callback does to the world. -/
def Act.exec {α : Type} (env : Env) (lists : Lists) : Act α → Run α
  | .pure a => fun w => (.ok a, w)
  | .throw e => fun w => (.error (.fault e), w)
  | .note id next => fun w => next.exec env lists { w with journal := .noted id :: w.journal }
  | .width k => (k env.settings.indent).exec env lists
  | .count mark k => fun w => (k (w.countOf mark)).exec env lists (w.addCount mark)
  | .fresh k => fun w => (k (.made w.made)).exec env lists { w with made := w.made + 1 }
  | .node n k => fun w =>
    match lists.node n w with
    | (.ok x, w) => (k x).exec env lists w
    | (.error e, w) => (.error e, w)
  | .walk n k => fun w =>
    match lists.walk n w with
    | (.ok (items, e), w) => (k items e).exec env lists w
    | (.error e, w) => (.error e, w)

/-- Prints a trace message. -/
def Env.trace (env : Env) (message : String) : Run Unit := Run.print (env.settings.traced env.scope message)

end CommittedChoice

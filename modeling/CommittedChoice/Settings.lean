import CommittedChoice.Json.Reader
import CommittedChoice.Json.Writer
import CommittedChoice.Fault

/-!
# Settings

- `Settings`: whether failed alternatives and failed runs are traced, the indentation of nested messages, and the
  most verbose level that is printed;
- `Layer`: settings some of which are left open; a layer read from a value keeps the fields that are known and
  well-typed (`Layer.ofValue`) and warns of the others;
- `Settings.over`: a layer on top of settings.
-/

namespace CommittedChoice

/-- How verbose the console is, from nothing to everything. -/
inductive Level where
  | silent | error | warn | info | debug
deriving Repr, DecidableEq

namespace Level

/-- All levels, the quietest first. -/
def all : List Level := [.silent, .error, .warn, .info, .debug]

/-- The name of a level. -/
def name : Level → String
  | .silent => "silent"
  | .error => "error"
  | .warn => "warn"
  | .info => "info"
  | .debug => "debug"

/-- How a level stands at the head of a line. -/
def banner : Level → String
  | .silent => "SILENT"
  | .error => "ERROR"
  | .warn => "WARN"
  | .info => "INFO"
  | .debug => "DEBUG"

/-- The place of a level in `all`. -/
def rank : Level → Nat
  | .silent => 0
  | .error => 1
  | .warn => 2
  | .info => 3
  | .debug => 4

/-- The level of a name. -/
def ofName? (s : String) : Option Level := all.find? fun l => l.name == s

end Level

/-- One line on the console. -/
structure Line where
  level : Level
  text : String

/-- What the configuration decides. -/
structure Settings where
  trace : Bool := false
  indent : Nat := 2
  log : Level := .warn

/-- Settings some of which are open. -/
structure Layer where
  trace : Option Bool := none
  indent : Option Nat := none
  log : Option Level := none

/-- The settings with the layer on top of them. -/
def Settings.over (s : Settings) (l : Layer) : Settings :=
  ⟨l.trace.getD s.trace, l.indent.getD s.indent, l.log.getD s.log⟩

/-- The upper layer where it says something, the lower one elsewhere. -/
def Layer.over (upper lower : Layer) : Layer :=
  ⟨upper.trace.or lower.trace, upper.indent.or lower.indent, upper.log.or lower.log⟩

/-! ## Printing -/

/-- The line of a scope at a level, with the project's mark in front. -/
def Line.of (scope : String) (level : Level) (message : String) : Line :=
  ⟨level, "[pledge/" ++ scope ++ "] " ++ level.banner ++ ": " ++ message⟩

/-- Whether a level is printed. -/
def Settings.prints (s : Settings) (level : Level) : Bool := level.rank ≤ s.log.rank

/-- What is printed for a message: nothing if its level is too verbose. -/
def Settings.report (s : Settings) (scope : String) (level : Level) (message : String) : List Line :=
  if s.prints level then [Line.of scope level message] else []

/-- What is printed for a trace message. -/
def Settings.traced (s : Settings) (scope : String) (message : String) : List Line :=
  if s.trace then s.report scope .debug message else []

/-! ## Reading layers -/

/-- How a value stands in a warning. -/
def shownInWarning (v : Value) : Except Fault String :=
  match Json.written? v with
  | .ok (some s) => .ok s
  | .ok none => .ok "undefined"
  | .error .bigint => .error (.mistyped "Do not know how to serialize a BigInt")
  | .error .knot => .error (.mistyped ("Converting circular structure to JSON\n" ++
      "    --> starting at object with constructor 'Object'\n    --- property 'self' closes the circle"))

/-- The layer with one more field, if the field is known and well-typed. -/
def Layer.put? (l : Layer) (key : String) (v : Value) : Option Layer :=
  match key, v with
  | "trace", .bool b => some { l with trace := some b }
  | "indent", .number (.whole i) => if 0 ≤ i then some { l with indent := some i.toNat } else none
  | "log", .text s => (Level.ofName? s).map fun level => { l with log := some level }
  | _, _ => none

/-- The fields of a compound value; an array has its positions as keys. -/
def Value.entries? : Value → Option (List (String × Value))
  | .record _ fields => some fields
  | .array _ xs => some (xs.zipIdx.map fun x => (Number.intText x.2, x.1))
  | .knot => some [("self", .knot)]
  | .mute => some [("toJSON", .function .maximum)]
  | .list _ | .step _ => some []
  | _ => none

/-- Reads fields one after the other into `l`; a field that is refused leaves a warning. -/
def Layer.read (source : String) : Layer → List (String × Value) → List Line × Except Fault Layer
  | l, [] => ([], .ok l)
  | l, (key, v) :: fields =>
    match l.put? key v with
    | some l => Layer.read source l fields
    | none =>
      match shownInWarning v with
      | .error e => ([], .error e)
      | .ok s =>
        let (lines, r) := Layer.read source l fields
        (Line.of "config" .warn ("ignoring " ++ source ++ " key \"" ++ key ++ "\": " ++ s) :: lines, r)

/-- The layer that a value describes, with the warnings it gives rise to. -/
def Layer.ofValue (source : String) (v : Value) : List Line × Except Fault Layer :=
  match v with
  | .absent | .null => ([], .ok {})
  | v =>
    match v.entries? with
    | some fields => Layer.read source {} fields
    | none => ([Line.of "config" .warn ("ignoring " ++ source ++ ": expected an object")], .ok {})

end CommittedChoice

import CommittedChoice.Coercion
import CommittedChoice.Config.Scalar
import CommittedChoice.Fields

/-!
# Nodes of an indented text

- `Node`: a value, and what it does as a key;
- `Kind`: the kinds that a node can be said to have; without one, a bare text is what its word stands for and any other
  content is itself (`Content.node?`);
- `Record`: fields that are read one after the other. A key stands there once, but may be set again if it was taken over
  from another record.
-/

namespace CommittedChoice.Config.Yaml

/-- A value that was read. -/
structure Node where
  value : Value
  /-- Whether it is the bare word that, as a key, takes over the fields of other records. -/
  borrows : Bool := false
  /-- How it is written as a key, if not by its plain text. -/
  shown : Option String := none

/-- What a bare text is. -/
def Node.bare (s : String) : Node := ⟨Scalar.value s, s = "<<", (Scalar.moment? s.toList).map Scalar.Moment.longText⟩

/-! ## Kinds -/

/-- The kinds that a node can be said to have. -/
inductive Kind where
  /-- No kind in particular: a text stays a text. -/
  | plain
  | text
  | integer
  | float
  | bool
  | null
  | moment
  | array
  | record
deriving DecidableEq

/-- The kind of a name; without a name it is no kind in particular. -/
def Kind.ofName? (name : String) : Option Kind :=
  match name with
  | "" => some .plain
  | "!str" => some .text
  | "!int" => some .integer
  | "!float" => some .float
  | "!bool" => some .bool
  | "!null" => some .null
  | "!timestamp" => some .moment
  | "!seq" => some .array
  | "!map" => some .record
  | _ => none

/-- What stands where a node is expected. -/
inductive Content where
  | nothing
  /-- A text, bare or not. -/
  | text (s : String) (bare : Bool)
  /-- An array or a record. -/
  | compound (v : Value)
  /-- A node that was read before. -/
  | known (n : Node)

/-- A text of a given kind. -/
def Kind.ofText? (k : Kind) (s : String) : Option Node :=
  match k, Scalar.value s with
  | .plain, _ | .text, _ => some ⟨.text s, false, none⟩
  | .integer, _ => (Scalar.integer? s.toList).map fun n => ⟨.number n, false, none⟩
  | .float, _ => (Scalar.float? s.toList).map fun n => ⟨.number n, false, none⟩
  | .bool, .bool b => some ⟨.bool b, false, none⟩
  | .null, .null => some ⟨.null, false, none⟩
  | .moment, _ => (Scalar.moment? s.toList).map fun _ => .bare s
  | _, _ => none

/-- Nothing of a given kind. -/
def Kind.ofNothing? : Kind → Option Value
  | .plain | .null => some .null
  | .text => some (.text "")
  | .array => some (.array .constant [])
  | .record => some (.record .constant [])
  | _ => none

/-- Whether a compound value is of a given kind. -/
def Kind.holds : Kind → Value → Bool
  | .plain, _ => true
  | .array, .array _ _ => true
  | .record, .record _ _ => true
  | .text, .array _ _ | .text, .record _ _ => false
  | .text, _ => true
  | _, _ => false

/-- The node that content comes to. -/
def Content.node? (kind : Option Kind) (c : Content) : Option Node :=
  match kind, c with
  | none, .nothing => some ⟨.null, false, none⟩
  | none, .text s bare => some (if bare then .bare s else ⟨.text s, false, none⟩)
  | none, .compound v => some ⟨v, false, none⟩
  | none, .known n => some n
  | some k, .nothing => k.ofNothing?.map fun v => ⟨v, false, none⟩
  | some k, .text s _ => k.ofText? s
  | some k, .compound v => if k.holds v then some ⟨v, false, none⟩ else none
  | some k, .known n =>
    match n.value with
    | .null => k.ofNothing?.map fun v => ⟨v, false, none⟩
    | v => if k.holds v then some { n with borrows := false } else none

/-! ## Fields -/

/-- The text of a key; an array of simple values is one too. -/
def keyText? (key : Value) : Option String :=
  match key with
  | .record _ _ => some Value.recordText
  | .array id xs =>
    if xs.any (fun x => x.items?.isSome) then none else (Value.asText (.array id xs)).toOption
  | v => v.asText.toOption

/-- The fields of a record that is read, and the keys that came from other records and may be set again. -/
structure Record where
  fields : List (String × Value) := []
  lent : List String := []

/-- Takes over the fields that are not there yet. -/
def Record.borrow (r : Record) : List (String × Value) → Record
  | [] => r
  | (key, v) :: more =>
    if r.fields.any (fun f => f.1 == key) then r.borrow more
    else Record.borrow ⟨Fields.set r.fields key v, key :: r.lent⟩ more

/-- Takes over the fields of a record, or of all records of an array. -/
def Record.borrowAll? (r : Record) (v : Value) : Option Record :=
  match v with
  | .record _ fields => some (r.borrow fields)
  | .array _ xs => xs.foldlM (fun r x => match x with
    | .record _ fields => some (r.borrow fields)
    | _ => none) r
  | _ => none

/-- Puts one field into a record. A key stands there once. -/
def Record.put? (r : Record) (key : Node) (v : Value) : Option Record :=
  if key.borrows then r.borrowAll? v
  else do
    let name ← key.shown.or (keyText? key.value)
    if r.fields.any (fun f => f.1 == name) && !r.lent.contains name then none
    else some ⟨Fields.set r.fields name v, r.lent.filter (· ≠ name)⟩

/-- The record. -/
def Record.value (r : Record) : Value := .record .constant r.fields

end CommittedChoice.Config.Yaml

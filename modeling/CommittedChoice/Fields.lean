import CommittedChoice.Value

/-!
# Fields of records

Fields keep the order in which they were set, except that keys which are array positions (`0`, `7`, `12`) come first in
numeric order. Setting a key again changes its value and not its place.
-/

namespace CommittedChoice

namespace Fields

/-- The position that a key names, if it is written the way positions are. -/
def position? (key : String) : Option Nat :=
  let cs := key.toList
  if cs.isEmpty || cs.any (fun c => !c.isDigit) || (cs.length > 1 && cs.head? == some '0') || cs.length > 10 then none
  else
    let n := cs.foldl (fun n c => 10 * n + (c.toNat - 48)) 0
    if n < 4294967295 then some n else none

/-- Puts a field after the positions below its own. -/
def insertPosition (n : Nat) (field : String × Value) : List (String × Value) → List (String × Value)
  | [] => [field]
  | f :: fs =>
    match position? f.1 with
    | some m => if m < n then f :: insertPosition n field fs else field :: f :: fs
    | none => field :: f :: fs

/-- Replaces the value of a key, if the key is there. -/
def replace? (key : String) (v : Value) : List (String × Value) → Option (List (String × Value))
  | [] => none
  | f :: fs => if f.1 = key then some ((key, v) :: fs) else (replace? key v fs).map (f :: ·)

/-- Sets one field. -/
def set (fields : List (String × Value)) (key : String) (v : Value) : List (String × Value) :=
  match replace? key v fields with
  | some fs => fs
  | none =>
    match position? key with
    | some n => insertPosition n (key, v) fields
    | none => fields ++ [(key, v)]

/-- The fields in their order, from the order in which they were written. -/
def ofList (written : List (String × Value)) : List (String × Value) :=
  written.foldl (fun fields f => set fields f.1 f.2) []

/-- The names under which every record has a function that is not one of its own fields. -/
def sharedFunctions : List String :=
  ["constructor", "hasOwnProperty", "isPrototypeOf", "propertyIsEnumerable", "toLocaleString", "toString", "valueOf",
    "__defineGetter__", "__defineSetter__", "__lookupGetter__", "__lookupSetter__"]

/-- What every record has under a name, apart from its own fields. -/
def shared? (key : String) : Option Value :=
  if key = "__proto__" then some (.record .constant [])
  else if key ∈ sharedFunctions then some (.function .maximum)
  else none

end Fields

/-- The value of a field. -/
def Value.field? (v : Value) (key : String) : Option Value :=
  match v with
  | .record _ fields => fields.lookup key
  | _ => none

end CommittedChoice

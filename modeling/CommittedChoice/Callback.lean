import CommittedChoice.Fields
import CommittedChoice.Parser.Combinators

/-!
# A vocabulary of callbacks

Functions on values, tests of tokens, functions on messages, continuations and loop steps, from which parsers can be
described without writing new ones.
-/

namespace CommittedChoice.Callback

/-! ## Functions on values -/

/-- Writes a note, then does `act`. -/
def noting {α : Type} (id : String) (act : Act α) : Act α := .note id act

/-- The integer that a text of one to fifteen digits writes, `-1` for any other text. -/
def readInt (s : String) : Int :=
  let cs := s.toList
  if cs.isEmpty || 15 < cs.length || cs.any (fun c => !c.isDigit) then -1
  else (cs.foldl (fun n c => 10 * n + (c.toNat - 48)) 0 : Nat)

/-- The length of an array, `-1` for anything else. -/
def length (v : Value) : Int :=
  match v.items? with
  | some xs => xs.length
  | none => -1

/-- An array with one more element at its end. -/
def append (v : Value) (x : Value) : Act Value := .array (v.items ++ [x])

/-- The element at a position, if there is one. -/
def elementAt (v : Value) (i : Number) : Value :=
  match v, i with
  | .array _ xs, .whole i => if 0 ≤ i then xs[i.toNat]?.getD .absent else .absent
  | _, _ => .absent

/-- The text of a value. -/
def joinedText (v : Value) : Act Value := .text v.joined

/-- A function that puts its two arguments around `x`. -/
def enclosing (x : Value) : Act Value := .fresh fun id => .pure (.function (.enclosing id x))

/-- An operation whose left argument is `x`. -/
def applied (op : Operation) (x : Value) : Act Value := .fresh fun id => .pure (.function (.applied id op x))

/-- A value that has no operation of this name; `shown` is what a fault calls the value. -/
def lacking (shown operation : String) : Value → Fault
  | .absent => .mistyped ("Cannot read properties of undefined (reading '" ++ operation ++ "')")
  | .null => .mistyped ("Cannot read properties of null (reading '" ++ operation ++ "')")
  | _ => .mistyped (shown ++ "." ++ operation ++ " is not a function")

/-- The field of a value under a name. Nothing at all cannot be asked for one. -/
def fieldOf (name : String) (v : Value) : Act Value :=
  match v with
  | .absent | .null => .throw (lacking "" name v)
  | v => .pure ((v.field? name).getD .absent)

/-- All items of a list that is parsed on demand. -/
def listItems (shown : String) : Value → Act (List Value)
  | .list n => .toArray n
  | v => .throw (lacking shown "toArray" v)

/-- The leading items of a list that is parsed on demand, as many as there are natural numbers below `k`. -/
def leadingItems (shown : String) (k : Number) : Value → Act (List Value)
  | .list n => .takeBelow k n
  | v => .throw (lacking shown "take" v)

/-- All items of a list that is parsed on demand, as an array. -/
def walked (v : Value) : Act Value := do Act.array (← listItems "x" v)

/-- Leading items of a list that is parsed on demand, as an array. -/
def taken (k : Number) (v : Value) : Act Value := do Act.array (← leadingItems "x" k v)

/-! ## Tests of tokens -/

/-- A text of one character that passes a test. -/
def isChar (test : Char → Bool) : Value → Bool
  | .text s =>
    match s.toList with
    | [c] => test c
    | _ => false
  | _ => false

/-- One of the decimal digits. -/
def isDigit (v : Value) : Bool := isChar Char.isDigit v

/-- One of the letters from `A` to `Z` in either case. -/
def isLetter (v : Value) : Bool := isChar Char.isAlpha v

/-- A number below `n`. -/
def isBelow (n : Number) : Value → Bool
  | .number m => m.less n
  | _ => false

/-! ## Functions on messages -/

/-- Indents by the configured width. -/
def indented (message : String) : Act String := .width fun w => .ofExcept (Message.indent w message)

/-- Indents by a width of one's own. -/
def indentedBy (width : Number) (message : String) : Act String := .ofExcept (Message.indentBy width message)

/-! ## Loop steps -/

/-- Whether a count has come to `n`. -/
def reached (n : Number) (count : Value) : Except Fault Bool :=
  (count.simple).bind fun
    | .bigint i => .ok (n.atMost (.whole i))
    | v => v.asNumber.map n.atMost

/-- A count and one more: a text has the digit put after it. -/
def oneMore (count : Value) : Except Fault Value :=
  (count.simple).bind fun
    | .text s => .ok (.text (s ++ "1"))
    | .bigint _ => .error (.mistyped "Cannot mix BigInt and other types, use explicit conversions")
    | v => v.asNumber.map fun n => .number (n.add (.whole 1))

/-- `p` until the count has come to `n`. -/
def countTo (p : Parser) (n : Number) (count : Value) : Act Parser := do
  if ← .ofExcept (reached n count) then return .pure (.done count)
  else return .map p fun _ => do return .again (← .ofExcept (oneMore count))

/-- The parser at the position that a count names. -/
def parserAt? (ps : List Parser) : Value → Option Parser
  | .number (.whole i) => if 0 ≤ i then ps[i.toNat]? else none
  | .text s => (Fields.position? s).bind fun i => ps[i]?
  | _ => none

/-- The parsers of a list one after the other. A count that is below their number and names none of them is a fault. -/
def eachOf (ps : List Parser) (count : Value) : Act Parser := do
  if ← .ofExcept (reached (.whole ps.length) count) then return .pure (.done count)
  else
    match parserAt? ps count with
    | some p => return .map p fun _ => do return .again (← .ofExcept (oneMore count))
    | none => .throw (lacking "" "apply" .absent)

/-- `p` until `stop` matches. -/
def untilStop (p stop : Parser) (state : Value) : Parser :=
  .orElse (.map stop fun _ => .pure (.done state)) (.map p fun x => do return .again (← append state x))

end CommittedChoice.Callback

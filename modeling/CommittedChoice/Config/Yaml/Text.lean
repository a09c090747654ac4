import CommittedChoice.Config.Yaml.Place
import CommittedChoice.Json.Reader

/-!
# Texts in an indented text

- `plain?`: a bare text, which ends where something else can start;
- `quoted?`: a text in single or double quotes;
- `block?`: a text of whole lines under a head, with its line breaks kept or folded.

Where a line of a bare or quoted text ends, the blanks around the line break do not count.
-/

namespace CommittedChoice.Config.Yaml

/-- What line breaks inside a text come to: one is a space, and each further one a line break. -/
def folded (breaks : Nat) : String := if breaks = 1 then " " else "".pushn '\n' (breaks - 1)

/-- Characters that cannot stand in a bare text. -/
def isUnprintable (c : Char) : Bool :=
  let n := c.toNat
  n ≤ 8 || n = 11 || n = 12 || (14 ≤ n && n ≤ 31) || (127 ≤ n && n ≤ 132) || (134 ≤ n && n ≤ 159) || n = 0xfffe ||
    n = 0xffff

/-- Whether a bare text may start with a character, given the one after it. -/
def startsPlain (inFlow : Bool) (c : Char) (following : Option Char) : Bool :=
  if isGap c || isFlow c || "#&*!|>'\"%@`".toList.contains c then false
  else if c = '?' || c = '-' then
    match following with
    | some d => !(isGap d || (inFlow && isFlow d))
    | none => true
  else true

/-- The rest of a bare text. `out` is the text so far, `blanks` are blanks that belong to it if it goes on in the line,
`breaks` counts line breaks passed since, and `stop` is the place after `out`. -/
def plainFrom (least : Int) (inFlow : Bool) : Nat → String → String → Nat → Place → Place → Option (String × Place)
  | 0, _, _, _, _, _ => none
  | fuel + 1, out, blanks, breaks, stop, p =>
    match p.next? with
    | none => some (out, p)
    | some c =>
      let following := p.second?
      let ends :=
        if c = ':' then (following.map fun d => isGap d || (inFlow && isFlow d)).getD false
        else if c = '#' then isGap p.before
        else p.atMark || (inFlow && isFlow c)
      if ends then some (out, p)
      else if isBreak c then
        match p.skip false with
        | (count, q) =>
          if least ≤ q.indent then plainFrom least inFlow fuel out "" (breaks + count) stop q else some (out, stop)
      else if isUnprintable c then none
      else if Scalar.isGap c then plainFrom least inFlow fuel out (blanks.push c) breaks stop p.step
      else
        let gap := if breaks = 0 then blanks else folded breaks
        plainFrom least inFlow fuel ((out ++ gap).push c) "" 0 p.step p.step

/-- A bare text, if one starts here; its further lines are indented by at least `least`. -/
def plain? (least : Int) (inFlow : Bool) : Reader (Option String) := fun p =>
  match p.next? with
  | none => some (none, p)
  | some c =>
    if startsPlain inFlow c p.second? then
      (plainFrom least inFlow (p.rest.length + 1) "" "" 0 p p).map fun (s, q) => if s = "" then (none, p) else (some s, q)
    else some (none, p)

/-- Whether a character may stand in a text in quotes. -/
def isQuotable (c : Char) : Bool := c = '\t' || 32 ≤ c.toNat

/-- The rest of a text in single quotes, in which a quote is written twice. `blanks` are blanks that belong to the text
unless the line ends after them. -/
def singleFrom : Nat → String → String → Place → Option (String × Place)
  | 0, _, _, _ => none
  | fuel + 1, out, blanks, p =>
    match p.next? with
    | none => none
    | some c =>
      if c = apostrophe then
        if p.second? = some apostrophe then singleFrom fuel ((out ++ blanks).push c) "" p.step.step
        else some (out ++ blanks, p.step)
      else if isBreak c then
        match p.skip false with
        | (count, q) => singleFrom fuel (out ++ folded count) "" q
      else if p.atMark || !isQuotable c then none
      else if Scalar.isGap c then singleFrom fuel out (blanks.push c) p.step
      else singleFrom fuel ((out ++ blanks).push c) "" p.step

/-- What one character after a backslash means. -/
def escape? (c : Char) : Option Char :=
  match c with
  | '0' => some (Char.ofNat 0)
  | 'a' => some (Char.ofNat 7)
  | 'b' => some (Char.ofNat 8)
  | 't' | '\t' => some '\t'
  | 'n' => some '\n'
  | 'v' => some (Char.ofNat 11)
  | 'f' => some (Char.ofNat 12)
  | 'r' => some '\r'
  | 'e' => some (Char.ofNat 27)
  | ' ' => some ' '
  | '"' => some '"'
  | '/' => some '/'
  | '\\' => some '\\'
  | 'N' => some (Char.ofNat 0x85)
  | '_' => some (Char.ofNat 0xa0)
  | 'L' => some (Char.ofNat 0x2028)
  | 'P' => some (Char.ofNat 0x2029)
  | _ => none

/-- A character by `count` hexadecimal digits. -/
def coded? (count : Nat) (p : Place) : Option (Char × Place) :=
  let ds := p.rest.take count
  if ds.length = count then
    (Numeral.inBase? 16 ds).map fun n => (Char.ofNat n, { p with rest := p.rest.drop count, column := p.column + count })
  else none

/-- The character that an escape means, after the backslash. -/
def escaped? (p : Place) : Option (Char × Place) :=
  match p.next? with
  | some 'x' => coded? 2 p.step
  | some 'u' => (Json.escaped? p.rest).map fun (c, rest) => (c, { p with rest := rest, column := p.column + 5 })
  | some 'U' => coded? 8 p.step
  | some c => (escape? c).map fun d => (d, p.step)
  | none => none

/-- The rest of a text in double quotes. `blanks` are blanks that belong to the text unless the line ends after them; a
line that ends with a backslash keeps them. -/
def doubleFrom : Nat → String → String → Place → Option (String × Place)
  | 0, _, _, _ => none
  | fuel + 1, out, blanks, p =>
    match p.next? with
    | none => none
    | some c =>
      if c = '"' then some (out ++ blanks, p.step)
      else if c = '\\' then
        if (p.second?.map isBreak).getD false then
          match p.step.skip false with
          | (_, q) => doubleFrom fuel (out ++ blanks) "" q
        else
          match escaped? p.step with
          | some (d, q) => doubleFrom fuel ((out ++ blanks).push d) "" q
          | none => none
      else if isBreak c then
        match p.skip false with
        | (count, q) => doubleFrom fuel (out ++ folded count) "" q
      else if p.atMark || !isQuotable c then none
      else if Scalar.isGap c then doubleFrom fuel out (blanks.push c) p.step
      else doubleFrom fuel ((out ++ blanks).push c) "" p.step

/-- A text in quotes, if one starts here. -/
def quoted? : Reader (Option String) := fun p =>
  if p.next? = some apostrophe then
    (singleFrom (p.rest.length + 1) "" "" p.step).map fun (s, p) => (some s, p)
  else if p.next? = some '"' then
    (doubleFrom (p.rest.length + 1) "" "" p.step).map fun (s, p) => (some s, p)
  else some (none, p)

/-! ## Blocks of lines -/

/-- What becomes of the line breaks at the end of a block. -/
inductive Chomp where
  /-- One of them stays. -/
  | clip
  | strip
  | keep
deriving DecidableEq

/-- What stands at the head of a block. -/
structure Head where
  /-- Whether lines are joined. -/
  folds : Bool
  chomp : Chomp := .clip
  /-- The indentation, if it is given, from the least one on. -/
  extra : Option Nat := none

/-- The rest of the head of a block. Each of its two parts stands there once, in any order. -/
def headFrom (h : Head) : List Char → Option (Head × List Char)
  | [] => some (h, [])
  | c :: cs =>
    if c = '+' ∨ c = '-' then
      if h.chomp = .clip then headFrom { h with chomp := if c = '+' then .keep else .strip } cs else none
    else if c.isDigit then
      if c = '0' ∨ h.extra.isSome then none else headFrom { h with extra := some (c.toNat - 49) } cs
    else some (h, c :: cs)

/-- The lines of a block that have been read. -/
structure Block where
  head : Head
  /-- The indentation of the lines, or the least one it can have. -/
  indent : Nat
  /-- Whether the indentation is known. -/
  known : Bool
  text : String := ""
  /-- Whether a line with something on it was read. -/
  started : Bool := false
  /-- Whether the line before was indented by more. -/
  more : Bool := false
  /-- The empty lines since. -/
  empty : Nat := 0

/-- Line breaks. -/
def breaks (n : Nat) : String := "".pushn '\n' n

/-- What comes between the lines so far and the next one, which starts with `c`. -/
def Block.between (b : Block) (c : Option Char) : String :=
  let all := if b.started then b.empty + 1 else b.empty
  if !b.head.folds || (c.map Scalar.isGap).getD false then breaks all
  else if b.more then breaks (b.empty + 1)
  else if b.empty = 0 then (if b.started then " " else "")
  else breaks b.empty

/-- What comes after the last line. -/
def Block.finish (b : Block) : String :=
  match b.head.chomp with
  | .keep => b.text ++ breaks (if b.started then b.empty + 1 else b.empty)
  | .clip => if b.started then b.text ++ "\n" else b.text
  | .strip => b.text

/-- The lines of a block, from the end of the line before them on. -/
def linesFrom : Nat → Block → Place → Option (String × Place)
  | 0, _, _ => none
  | fuel + 1, b, p =>
    if p.rest.isEmpty then some (b.text, p)
    else
      let q := if b.known then p.nextLineTo b.indent else p.nextLine
      let b := if b.known then b else { b with indent := max b.indent q.indent }
      if (q.next?.map isBreak).getD false then linesFrom fuel { b with empty := b.empty + 1 } q
      else if q.indent < b.indent then some (b.finish, q)
      else
        let (cs, r) := q.takeWhile fun c => !isBreak c
        if cs.any isUnprintable then none
        else
          let folded := b.head.folds && (q.next?.map Scalar.isGap).getD false
          linesFrom fuel
            { b with
              text := b.text ++ b.between q.next? ++ String.ofList cs, known := true, started := true, more := folded,
              empty := 0 } r

/-- A block of lines, if one starts here; they are indented by at least `least`. -/
def block? (least : Int) : Reader (Option String) := fun p =>
  let opens (folds : Bool) : Option (Option String × Place) := do
    let (head, rest) ← headFrom { folds } p.step.rest
    let p := { p.step with rest }
    let (blanks, q) := p.takeWhile Scalar.isGap
    let q := if !blanks.isEmpty && q.next? = some '#' then q.endOfLine else q
    if (q.next?.map isBreak).getD true then
      let indent := least.toNat + head.extra.getD 0
      let (s, r) ← linesFrom (q.rest.length + 1) { head, indent, known := head.extra.isSome } q
      return (some s, r)
    else none
  match p.next? with
  | some '|' => opens false
  | some '>' => opens true
  | _ => some (none, p)

end CommittedChoice.Config.Yaml

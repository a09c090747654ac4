import CommittedChoice.Config.Yaml.Node
import CommittedChoice.Config.Yaml.Text

/-!
# Indented text

A reader for configuration files in which nesting is shown by indentation or by brackets: fields `key: value`, items
`- value`, arrays and records in brackets, bare words, texts in quotes or in blocks of lines, names of nodes and
references to them, and comments.

- `node`: a value of any kind, indented by more than what it belongs to;
- `fieldsFrom`, `itemsFrom`: what is nested by indentation; `membersFrom`, `elementsFrom`: what is nested by brackets;
- `read?`: the value of a whole file. A file of several documents is refused.
-/

namespace CommittedChoice.Config.Yaml

/-! ## Names and kinds of nodes -/

/-- What a node says of itself before its content. -/
structure Properties where
  kind : Option Kind := none
  name : Option String := none

/-- Whether a node says something of itself. -/
def Properties.isSome (s : Properties) : Bool := s.kind.isSome || s.name.isSome

/-- The characters of a name. -/
def isNameChar (c : Char) : Bool := !isGap c && !isFlow c

/-- A name, after the mark in front of it. -/
def name : Reader String := do
  step
  match ← takeWhile isNameChar with
  | [] => refuse
  | cs => return String.ofList cs

/-- A kind, after the mark in front of it. A kind that is not known is refused. -/
def kind : Reader Kind := do
  step
  match Kind.ofName? (String.ofList (← takeWhile fun c => !isGap c)) with
  | some k => return k
  | none => refuse

/-- Gives a node a name. -/
def giveName (name : Option String) (v : Value) : Reader Unit :=
  match name with
  | some n => modify fun p => { p with named := (n, v) :: p.named }
  | none => pure ()

/-- The node of a name that was given before. -/
def reference? : Reader (Option Node) := do
  if (← peek) = some '*' then
    let n ← name
    match (← get).named.lookup n with
    | none => refuse
    | some v =>
      let _ ← skip
      return some ⟨v, false, none⟩
  else return none

/-! ## Nodes -/

/-- Where a node stands. -/
inductive Setting where
  /-- Between brackets. -/
  | bracketed
  /-- A key. -/
  | key
  /-- An item. -/
  | item
  /-- A field, or the whole document. -/
  | outer
deriving DecidableEq

/-- Whether nesting is shown by brackets alone here. -/
def Setting.isFlow (s : Setting) : Bool := s = .bracketed || s = .key

/-- How far a line is indented, compared with what a node in it belongs to. -/
inductive Standing where
  | deeper | level | outside
deriving DecidableEq

/-- How far a line is indented. -/
def Standing.of (parent : Int) (indent : Nat) : Standing :=
  if parent < indent then .deeper else if parent = indent then .level else .outside

/-- Where a node's content stands. -/
structure Lead where
  said : Properties := {}
  /-- Whether a line break was passed on the way to the content. -/
  crossed : Bool
  standing : Standing
  /-- Whether the content is on another line than what was said last. -/
  apart : Bool := true
  /-- The start of the line of what was said last, and what was said before it. -/
  start : Place
  earlier : Properties := {}

/-- Reads what a node says of itself. -/
def leadFrom (parent : Int) : Nat → Lead → Reader Lead
  | 0, _ => refuse
  | fuel + 1, l => do
    let said ← match ← peek with
      | some '!' => if l.said.kind.isSome then refuse else some <$> (do return { l.said with kind := ← kind })
      | some '&' => if l.said.name.isSome then refuse else some <$> (do return { l.said with name := ← name })
      | _ => pure none
    match said with
    | none => return l
    | some said =>
      let breaks ← skip
      let p ← get
      if breaks = 0 then leadFrom parent fuel { l with said, apart := false }
      else
        leadFrom parent fuel
          { said, crossed := true, standing := .of parent p.indent, apart := true, start := p, earlier := said }

/-- The value of a node that may be missing. -/
def valueOf (n : Option Node) : Value := (n.map (·.value)).getD .null

/-- A key that is missing. -/
def Node.absent : Node := ⟨.null, false, none⟩

/-- What the first key of a record turns out to be: a record, or just the key. -/
inductive Opening where
  | record (v : Value)
  | lone (n : Node)

/-- The record, if it is one. -/
def Opening.record? : Opening → Option Value
  | .record v => some v
  | .lone _ => none

mutual

/-- A node, if there is one: it belongs to something indented by `parent`. With `seek` it may start on a later line, and
with `compact` fields and items may start in the middle of a line. -/
def node : Nat → Int → Setting → Bool → Bool → Reader (Option Node)
  | 0, _, _, _, _ => refuse
  | fuel + 1, parent, setting, seek, compact => do
    let breaks ← if seek then skip else pure 0
    let p ← get
    let standing := if breaks = 0 then .deeper else Standing.of parent p.indent
    let first : Lead := { crossed := breaks ≠ 0, standing, start := p }
    let lead ← if standing = .deeper then leadFrom parent (fuel + 1) first else pure first
    let least := if setting.isFlow then parent else parent + 1
    let blocks := !setting.isFlow && (lead.crossed || compact)
    -- what was said in this line may belong to the first key of a record
    let record ←
      if lead.apart || !blocks || lead.standing ≠ .deeper then pure none
      else attempt do
        set { lead.start with named := (← get).named }
        giveName lead.earlier.name .knot
        return (← fields? fuel lead.start.column least).bind Opening.record?
    let (said, c) ← match record with
      | some v => pure (lead.earlier, Content.compound v)
      | none => do
        giveName lead.said.name .knot
        pure (lead.said, ← content fuel least setting (blocks && lead.apart) lead)
    match c, said.isSome with
    | .nothing, false => return none
    | c, _ =>
      match c.node? said.kind with
      | none => refuse
      | some n =>
        giveName said.name n.value
        return some n

/-- The content of a node; with `blocks` it may be nested by indentation. -/
def content : Nat → Int → Setting → Bool → Lead → Reader Content
  | 0, _, _, _, _ => refuse
  | fuel + 1, least, setting, blocks, lead => do
    let column := (← get).column
    let array (v : Option Value) : Content := (v.map .compound).getD .nothing
    match lead.standing with
    | .outside => return .nothing
    | .level => if setting = .outer && blocks then return array (← items? fuel column) else return .nothing
    | .deeper =>
      if let some v ← (if blocks then items? fuel column else pure none) then return .compound v
      match ← (if blocks then fields? fuel column least else pure none) with
      | some (.record v) => return .compound v
      | some (.lone n) => return .known n
      | none =>
        if let some v ← brackets? fuel least then return .compound v
        if let some s ← (if setting.isFlow then pure none else block? least) then return .text s false
        if let some s ← quoted? then return .text s false
        match ← reference? with
        | some n => if lead.said.isSome then refuse else return .known n
        | none => return ((← plain? least (setting = .bracketed)).map (.text · true)).getD .nothing

/-- Items `- value`, if there are some here. -/
def items? : Nat → Nat → Reader (Option Value)
  | 0, _ => refuse
  | fuel + 1, column => do
    let p ← get
    if p.tab then return none
    else if p.next? = some '-' && (p.second?.map isGap).getD false then
      return some (.array .constant (← itemsFrom fuel column []))
    else return none

/-- Items from here on, the newest first in `done`. -/
def itemsFrom : Nat → Nat → List Value → Reader (List Value)
  | 0, _, _ => refuse
  | fuel + 1, column, done => do
    let p ← get
    if p.next? = some '-' && (p.second?.map isGap).getD false then
      if p.tab then refuse
      else
        step
        let breaks ← skip
        let q ← get
        if breaks ≠ 0 && q.indent ≤ column then itemsFrom fuel column (.null :: done)
        else
          let v ← node fuel column .item false true
          let _ ← skip
          let r ← get
          let done := valueOf v :: done
          if (r.line = q.line || column < r.indent) && !r.rest.isEmpty then refuse
          else if r.indent < column then return done.reverse
          else itemsFrom fuel column done
    else return done.reverse

/-- Fields `key: value`, if there are some here, or what else the first key turns out to be. -/
def fields? : Nat → Nat → Int → Reader (Option Opening)
  | 0, _, _ => refuse
  | fuel + 1, column, least => do
    if (← get).tab then return none else fieldsFrom fuel column least false none {}

/-- Fields from here on; `started` says whether a field was read before, and `waiting` is a key on a line of its own whose
value may follow. -/
def fieldsFrom : Nat → Nat → Int → Bool → Option Node → Record → Reader (Option Opening)
  | 0, _, _, _, _, _ => refuse
  | fuel + 1, column, least, started, waiting, r => do
    let p ← get
    let settled : Option Record := match waiting with
      | some key => r.put? key .null
      | none => some r
    let finish (started : Bool) (r : Option Record) : Reader (Option Opening) :=
      match started, r with
      | false, _ => return none
      | true, some r => return some (.record r.value)
      | true, none => refuse
    let goOn (waiting : Option Node) (r : Record) : Reader (Option Opening) := do
      let _ ← skip
      let e ← get
      if (e.line = p.line || column < e.indent) && !e.rest.isEmpty then refuse
      else if e.indent < column then
        finish true (match waiting with
          | some key => r.put? key .null
          | none => some r)
      else fieldsFrom fuel column least true waiting r
    let value (key : Node) (r : Record) (compact : Bool) : Reader (Option Opening) := do
      match r.put? key (valueOf (← node fuel column .outer true compact)) with
      | some r => goOn none r
      | none => refuse
    let alone := (p.second?.map isGap).getD false
    if p.rest.isEmpty then finish started settled
    else if waiting.isNone && p.tab then refuse
    else if p.next? = some '?' && alone then
      match settled with
      | none => refuse
      | some r =>
        step
        let key ← node fuel column .outer true true
        goOn (some { key.getD .absent with borrows := false }) r
    else if p.next? = some ':' && alone then
      match waiting with
      | none => refuse
      | some key =>
        step
        value key r true
    else
      match ← node fuel least .key false true with
      | none => finish started settled
      | some key =>
        let q ← get
        let q := if q.line = p.line then (q.takeWhile Scalar.isGap).2 else q
        if q.line = p.line && q.next? = some ':' then
          match settled, (q.second?.map isGap).getD false with
          | some r, true =>
            set q.step
            value key r false
          | _, _ => refuse
        else if started then refuse
        else return some (.lone key)

/-- An array or a record in brackets, if one starts here. -/
def brackets? : Nat → Int → Reader (Option Value)
  | 0, _ => refuse
  | fuel + 1, least => do
    match ← peek with
    | some '[' =>
      step
      return some (.array .constant (← elementsFrom fuel least true []))
    | some '\x7b' =>
      step
      return some (← membersFrom fuel least true {}).value
    | _ => return none

/-- One entry between brackets: a node, and the node after a colon. -/
def entry : Nat → Int → Reader (Option Node × Option (Option Node))
  | 0, _ => refuse
  | fuel + 1, least => do
    let p ← get
    let explicit := p.next? = some '?' && (p.second?.map isGap).getD false
    if explicit then
      step
      let _ ← skip
    let start ← get
    let key ← node fuel least .bracketed false true
    let _ ← skip
    let q ← get
    if (explicit || q.line = start.line) && q.next? = some ':' then
      step
      let _ ← skip
      let v ← node fuel least .bracketed false true
      let _ ← skip
      return (key, some v)
    else return (key, if explicit then some none else none)

/-- Whether another entry may follow; passes the comma. -/
def comma : Nat → Reader Bool
  | 0 => refuse
  | _ + 1 => do
    if (← peek) = some ',' then
      step
      return true
    else return false

/-- Elements up to the closing bracket, the newest first in `done`; `more` says whether another one may follow. -/
def elementsFrom : Nat → Int → Bool → List Value → Reader (List Value)
  | 0, _, _, _ => refuse
  | fuel + 1, least, more, done => do
    let _ ← skip
    match ← peek with
    | none => refuse
    | some ']' =>
      step
      return done.reverse
    | some c =>
      if !more || c = ',' then refuse
      else
        let v ← match ← entry fuel least with
          | (key, none) => pure (valueOf key)
          | (key, some v) =>
            match Record.put? {} (key.getD .absent) (valueOf v) with
            | some r => pure r.value
            | none => refuse
        elementsFrom fuel least (← comma fuel) (v :: done)

/-- Fields up to the closing brace; `more` says whether another one may follow. -/
def membersFrom : Nat → Int → Bool → Record → Reader Record
  | 0, _, _, _ => refuse
  | fuel + 1, least, more, r => do
    let _ ← skip
    match ← peek with
    | none => refuse
    | some '\x7d' =>
      step
      return r
    | some c =>
      if !more || c = ',' then refuse
      else
        let (key, v) ← entry fuel least
        match r.put? (key.getD .absent) (valueOf (v.getD none)) with
        | some r => membersFrom fuel least (← comma fuel) r
        | none => refuse

end

/-! ## Files -/

/-- Whether characters are a version that can be read: two numbers with a point between them, the first of them one. -/
def isVersion (cs : List Char) : Bool :=
  match Numeral.digits 0 0 cs with
  | (1, _, '.' :: rest) => !rest.isEmpty && rest.all Char.isDigit
  | _ => false

/-- The words of a line, up to a comment. -/
def wordsFrom : Nat → List (List Char) → Place → List (List Char) × Place
  | 0, done, p => (done.reverse, p)
  | fuel + 1, done, p =>
    let p := (p.takeWhile Scalar.isGap).2
    match p.next? with
    | none => (done.reverse, p)
    | some c =>
      if c = '#' then (done.reverse, p.endOfLine)
      else if isBreak c then (done.reverse, p)
      else
        let (word, p) := p.takeWhile fun c => !isGap c
        wordsFrom fuel (word :: done) p

/-- Lines in front of a document that say how to read it; whether there were some, and whether one gave a version. -/
def directivesFrom : Nat → Bool → Bool → Reader Bool
  | 0, _, _ => refuse
  | fuel + 1, found, versioned => do
    let _ ← skip
    let p ← get
    if p.indent = 0 && p.next? = some '%' then
      step
      let title ← takeWhile fun c => !isGap c
      let (words, q) := wordsFrom fuel [] (← get)
      set q
      if title.isEmpty then refuse
      else if title = "YAML".toList then
        match versioned, words with
        | false, [v] => if isVersion v then directivesFrom fuel true true else refuse
        | _, _ => refuse
      else if title = "TAG".toList && words.length ≠ 2 then refuse
      else directivesFrom fuel true versioned
    else return found

/-- Passes a mark between documents. -/
def mark : Reader Unit := do
  step
  step
  step
  let _ ← skip

/-- One document, which ends the text. -/
def document (fuel : Nat) : Reader Value := do
  let directed ← directivesFrom fuel false false
  let p ← get
  if p.indent = 0 && p.rest.take 3 = ['-', '-', '-'] then mark
  else if directed then refuse
  let q ← get
  let v ← node fuel ((q.indent : Int) - 1) .outer false true
  let _ ← skip
  let e ← get
  if e.atMark && e.next? = some '.' then mark
  if (← get).rest.isEmpty then return valueOf v else refuse

/-- The characters of a file with a line break at their end, and without the mark that may open them. -/
def normalized (s : String) : List Char :=
  let cs := match s.toList with
    | '\ufeff' :: cs => cs
    | cs => cs
  if (cs.getLast?.map isBreak).getD true then cs else cs ++ ['\n']

/-- The value of a file. -/
def read? (s : String) : Option Value :=
  let cs := normalized s
  let spaces := (cs.takeWhile (· = ' ')).length
  if cs.contains (Char.ofNat 0) then none
  else
    ((document (12 * cs.length + 64)).run
      { rest := cs.drop spaces, before := if spaces = 0 then '\n' else ' ', column := spaces, indent := spaces }).map (·.1)

end CommittedChoice.Config.Yaml

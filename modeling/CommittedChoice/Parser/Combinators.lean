import CommittedChoice.Parser.Basic

/-!
# Combinators

Parsers built from the primitives alone, so every engine runs them alike.

- Repetition is built on `loop`. What has been matched so far is kept newest first, and every repetition stops when a
  turn succeeds without consuming a token (`repeatFold`, `manyUntil`).
- Messages are reworded by a headline under which the message is indented (`headed`).
- Brackets commit to their closing part: once the opening one and the content have matched, no other alternative is
  tried (`between`, `listBetween`).
-/

namespace CommittedChoice

namespace Value

/-- Values kept by a loop, which never leave it. -/
def kept (xs : List Value) : Value := .array .constant xs

/-- One more value to keep, in front of the others. -/
def keep (v kept : Value) : Value := .kept (v :: kept.items)

/-- Two values as one. -/
def both (a b : Value) : Value := .kept [a, b]

/-- The first of two values. -/
def fst : Value → Value
  | .array _ (a :: _) => a
  | _ => .absent

/-- The second of two values. -/
def snd : Value → Value
  | .array _ (_ :: b :: _) => b
  | _ => .absent

@[simp] theorem items_kept (xs : List Value) : (kept xs).items = xs := rfl

@[simp] theorem keep_kept (v : Value) (xs : List Value) : keep v (kept xs) = kept (v :: xs) := rfl

@[simp] theorem fst_both (a b : Value) : (both a b).fst = a := rfl

@[simp] theorem snd_both (a b : Value) : (both a b).snd = b := rfl

end Value

namespace Parser

/-! ## Sequencing -/

/-- Both parsers, the second value. -/
def seqRight (p q : Parser) : Parser := .bind p fun _ => .pure q

/-- Both parsers, the first value. -/
def seqLeft (p q : Parser) : Parser := .bind p fun a => .pure (.map q fun _ => .pure a)

/-- Both parsers, both values. -/
def pair (p q : Parser) : Parser := .bind p fun a => .pure (.map q fun b => .array [a, b])

/-- The function that the first parser gives, applied to the value of the second. -/
def apply (pf pa : Parser) (ds : Definitions := .none) : Parser :=
  .bind pf fun f => .pure (.map pa fun a => Act.call ds "f" f [a])

/-- A parser that is looked at only when it is needed. -/
def deferred (p : Act Parser) : Parser := .bind (.pure .absent) fun _ => p

/-- Ends a loop with an array of the values it kept, the oldest first. -/
def ended (kept : Value) : Act Parser := do return .pure (.done (← .array kept.items.reverse))

/-- One turn per parser; the state is the number of parsers run and their values. -/
def sequence (ps : List Parser) : Parser :=
  .loop (.both (.nat 0) (.kept [])) fun s =>
    let i := s.fst.integer.toNat
    match ps[i]? with
    | none => ended s.snd
    | some p => .pure (.map p fun a => .pure (.again (.both (.nat (i + 1)) (.keep a s.snd))))

/-! ## Failing and choosing -/

/-- A failure that no choice recovers from. -/
def abort (message : String) : Parser := .commit (.fail message)

/-- Commits to a parser whose messages are reworded. -/
def commitReworded (p : Parser) (f : String → Act String) : Parser := .commit (.reword p f)

/-- Indents the messages of a parser below a headline. -/
def headed (headline : String) (p : Parser) : Parser :=
  .reword p fun m => .width fun w => .ofExcept (Message.under headline w m)

/-- The first parser that does not fail plainly. -/
def anyOf (ps : List Parser) : Parser := ps.foldr .orElse (.fail Message.nothingMatched)

/-- The value of the parser, or nothing. -/
def optional (p : Parser) : Parser := .orElse (.map p fun a => .pure a) (.pure .null)

/-- The value of the parser, or `fallback`. -/
def option (fallback : Value) (p : Parser) : Parser := .orElse p (.pure fallback)

/-! ## Tokens -/

/-- One token that passes a test, with a message of one's own if there is none. -/
def expecting (test : Value → Act Bool) (message : String) : Parser :=
  .reword (.satisfy test) fun m => .pure (message ++ ": " ++ m)

/-- One token that is the same as `expected`. A token that messages cannot show is a fault. -/
def token (expected : Value) : Parser :=
  match Message.token expected with
  | .ok shown => expecting (fun t => .pure (t.same expected)) ("expected " ++ shown)
  | .error e => deferred (.throw e)

/-- These tokens, one after the other. They are shown before any token is read, so one that messages cannot show is a
fault even if it is never reached. -/
def literal (expected : List Value) : Parser :=
  match expected.mapM Message.token with
  | .ok _ => sequence (expected.map token)
  | .error e => deferred (.throw e)

/-! ## Repetition -/

/-- Folds successive matches into `init`. Stops at the first plain failure, or at a match that consumed nothing. -/
def repeatFold (p : Parser) (init : Value) (f : Value → Value → Act Value) : Parser :=
  .loop init fun acc => .pure <|
    .orElse
      (.bind .position fun before => .pure <|
        .bind p fun a => .pure <|
          .map .position fun after =>
            if after.same before then .pure (.done acc) else do return .again (← f acc a))
      (.pure (.done acc))

/-- As many matches as there are. -/
def many (p : Parser) : Parser :=
  .map (repeatFold p (.kept []) fun acc a => .pure (.keep a acc)) fun acc => .array acc.items.reverse

/-- At least one match. -/
def many1 (p : Parser) : Parser :=
  .bind (headed "In a sequence" p) fun x => .pure (.map (many p) fun xs => .array (x :: xs.items))

/-- As many matches as there are, without their values. -/
def skipMany (p : Parser) : Parser := repeatFold p .absent fun _ _ => .pure .absent

/-- Exactly `n` matches; the state is how many are missing and the values so far. A fraction of a match is a match. -/
def times (n : Number) (p : Parser) : Parser :=
  .loop (.both (.number n) (.kept [])) fun s =>
    match s.fst with
    | .number left =>
      if left.atMost (.whole 0) then ended s.snd
      else
        .pure <| .map (headed ("When expecting exactly " ++ left.text ++ " more items") p) fun a =>
          .pure (.again (.both (.number (left.sub (.whole 1))) (.keep a s.snd)))
    | _ => ended s.snd

/-- At most `n` matches; the state is how many are still allowed and the values so far. -/
def atMost (n : Number) (p : Parser) : Parser :=
  .loop (.both (.number n) (.kept [])) fun s =>
    match s.fst with
    | .number left =>
      if left.atMost (.whole 0) then ended s.snd
      else
        .pure <| .orElse
          (.map p fun a => .pure (.again (.both (.number (left.sub (.whole 1))) (.keep a s.snd))))
          (.bind (.pure .absent) fun _ => ended s.snd)
    | _ => ended s.snd

/-- At least one match, with separators between them. -/
def sepBy1 (p sep : Parser) : Parser :=
  headed "When looking for a non-empty sequence with separators" <|
    .bind p fun x => .pure (.map (many (seqRight sep p)) fun xs => .array (x :: xs.items))

/-- Any number of matches, with separators between them. -/
def sepBy (p sep : Parser) : Parser := .orElse (sepBy1 p sep) (.pure (.array .constant []))

/-- Items up to a terminator; if neither matches, the message reports both. -/
def manyUntil (p terminator : Parser) : Parser :=
  .loop (.kept []) fun acc => .pure <| .choice [
    ("item in a sequence",
      .bind .position fun before => .pure <|
        .bind p fun a => .pure <|
          .bind .position fun after => .pure <|
            if after.same before then .fail Message.emptyItem else .pure (.again (.keep a acc))),
    ("sequence terminator", .map terminator fun _ => do return .done (← .array acc.items.reverse))]

/-! ## Brackets -/

/-- Something between an opening and a closing part. -/
def between (opening closing p : Parser) : Parser :=
  seqRight (headed "Missing opening bracket" opening)
    (seqLeft p (.commit (headed "Missing closing bracket" closing)))

/-- Any number of items with separators, between an opening and a closing part. -/
def listBetween (opening sep closing p : Parser) : Parser :=
  .orElse
    (seqRight opening (seqRight closing (.pure (.array .constant []))))
    (seqRight (headed "Missing opening bracket" opening)
      (.bind (headed "After first bracket in a group" p) fun x => .pure <|
        .map (manyUntil (seqRight sep p) (.commit (headed "When looking for closing bracket" closing)))
          fun xs => .array (x :: xs.items)))

/-! ## Operators -/

/-- Operands joined by operators that group to the left. -/
def chainl1 (p op : Parser) (ds : Definitions := .none) : Parser :=
  .bind p fun x => .pure (repeatFold (pair op p) x fun acc link => Act.call ds "f" link.fst [acc, link.snd])

/-- Joins the links of a chain from its end: `acc` is what stands to the right of the first link, and `x` what stands
before the last one. -/
def groupRight (ds : Definitions) (x acc : Value) : List Value → Act Value
  | [] => .pure acc
  | [link] => Act.call ds "links[i][0]" link.fst [x, acc]
  | link :: before :: links => do
    let acc ← Act.call ds "links[i][0]" link.fst [before.snd, acc]
    groupRight ds x acc (before :: links)

/-- Operands joined by operators that group to the right. -/
def chainr1 (p op : Parser) (ds : Definitions := .none) : Parser :=
  .bind p fun x => .pure <|
    .map (repeatFold (pair op p) (.kept []) fun acc link => .pure (.keep link acc)) fun links =>
      match links.items with
      | link :: more => groupRight ds x link.snd (link :: more)
      | [] => .pure x

/-- `chainl1`, or `fallback`. -/
def chainl (p op : Parser) (fallback : Value) (ds : Definitions := .none) : Parser := option fallback (chainl1 p op ds)

/-- `chainr1`, or `fallback`. -/
def chainr (p op : Parser) (fallback : Value) (ds : Definitions := .none) : Parser := option fallback (chainr1 p op ds)

/-! ## State -/

/-- Changes the state. -/
def modify (f : Value → Act Value) : Parser := .bind .get fun s => do return .put (← f s)

/-- Looks at the state. -/
def gets (f : Value → Act Value) : Parser := .map .get f

end Parser

end CommittedChoice

import CommittedChoice.Fault
import CommittedChoice.Value

/-!
# Remainders

A remainder is an immutable view of the tokens not yet read. Reading a token gives a new remainder and leaves the old
one as it was, so any number of alternatives can start from one remainder.

- `Feed`: a source that is asked for tokens one call at a time. Each position is asked for once and remembered, the
  end included, so every remainder of the feed sees the same tokens;
- `Remainder`: what is left of a list, a text or a feed, tokens pushed back in front of a remainder, and a remainder
  after pushed-back tokens have been read;
- `offset`: tokens taken from the underlying source less those pushed back; `consumed`: tokens read so far, those read
  again included. The first can fall, the second cannot.
-/

namespace CommittedChoice

/-! ## Feeds -/

/-- The answer of a source to one call. -/
inductive Pull where
  | token (t : Value)
  | ended
  | failed

/-- A source and what it has answered so far. -/
structure Feed where
  /-- The answer to each call, the first call being number 0. -/
  source : Nat → Pull
  /-- How many calls were made. -/
  calls : Nat := 0
  /-- The tokens it gave. -/
  given : Array Value := #[]
  /-- Whether it reported its end. -/
  ended : Bool := false

namespace Feed

/-- A source that has nothing to give. -/
def empty : Feed := { source := fun _ => .ended }

/-- A source that gives `tokens`, reports its end once, then gives `more` and reports its end for ever; it fails
instead of answering at the calls listed in `failing`, which are counted from 1. -/
def ofTokens (tokens more : Array Value) (failing : List Nat) : Feed where
  source k :=
    if failing.contains (k + 1) then .failed
    else
      let i := k - (failing.eraseDups.filter (· ≤ k)).length
      match tokens[i]? with
      | some t => .token t
      | none =>
        if i = tokens.size then .ended
        else
          match more[i - tokens.size - 1]? with
          | some t => .token t
          | none => .ended

/-- A source that counts up from `n` for ever. -/
def counting (n : Number) : Feed where
  source k := .token (.number (n.ahead k))

/-- Reads position `i`, asking the source if nobody read it before. -/
def read (feed : Feed) (i : Nat) : Except Fault (Option Value) × Feed :=
  match feed.given[i]? with
  | some t => (.ok (some t), feed)
  | none =>
    if feed.ended then (.ok none, feed)
    else
      match feed.source feed.calls with
      | .token t => (.ok (some t), { feed with calls := feed.calls + 1, given := feed.given.push t })
      | .ended => (.ok none, { feed with calls := feed.calls + 1, ended := true })
      | .failed => (.error (.source (feed.calls + 1)), { feed with calls := feed.calls + 1 })

end Feed

/-! ## Remainders -/

/-- The tokens not yet read. -/
inductive Remainder where
  /-- What is left of a list after `taken` tokens. -/
  | tokens (left : List Value) (taken : Nat)
  /-- What is left of a text after `taken` characters. -/
  | chars (left : List Char) (taken : Nat)
  /-- A feed after `taken` tokens. -/
  | fed (taken : Nat)
  /-- At least one token pushed back in front of `base`. -/
  | pushed (token : Value) (more : List Value) (base : Remainder) (consumed : Nat)
  /-- `base` after tokens in front of it were read, which add `extra` to what it has consumed. -/
  | shifted (base : Remainder) (extra : Nat)

namespace Remainder

instance : Inhabited Remainder := ⟨.tokens [] 0⟩

/-- All of a list. -/
def ofList (ts : List Value) : Remainder := .tokens ts 0

/-- All characters of a text. -/
def ofText (s : String) : Remainder := .chars s.toList 0

/-- All of a feed. -/
def ofFeed : Remainder := .fed 0

/-- Tokens taken from the underlying source less those pushed back. -/
def offset : Remainder → Int
  | .tokens _ n | .chars _ n | .fed n => n
  | .pushed _ more base _ => base.offset - (more.length + 1 : Nat)
  | .shifted base _ => base.offset

/-- Tokens read so far, pushed-back ones included. -/
def consumed : Remainder → Nat
  | .tokens _ n | .chars _ n | .fed n => n
  | .pushed _ _ _ c => c
  | .shifted base extra => base.consumed + extra

/-- The remainder with tokens in front of it. -/
def push (ts : List Value) (s : Remainder) : Remainder :=
  match ts with
  | [] => s
  | t :: more => .pushed t more s s.consumed

/-- The remainder with `extra` added to what it has consumed; shifts are merged, so they never nest. -/
def shift (s : Remainder) (extra : Nat) : Remainder :=
  if extra = 0 then s
  else
    match s with
    | .shifted base e => .shifted base (e + extra)
    | s => .shifted s extra

/-- The first token and what is left after it, if there is a token. -/
def next? : Remainder → Feed → Except Fault (Option (Value × Remainder)) × Feed
  | .tokens left n, feed =>
    match left with
    | [] => (.ok none, feed)
    | t :: ts => (.ok (some (t, .tokens ts (n + 1))), feed)
  | .chars left n, feed =>
    match left with
    | [] => (.ok none, feed)
    | c :: cs => (.ok (some (.text (String.singleton c), .chars cs (n + 1))), feed)
  | .fed n, feed =>
    match feed.read n with
    | (.ok (some t), feed) => (.ok (some (t, .fed (n + 1))), feed)
    | (.ok none, feed) => (.ok none, feed)
    | (.error e, feed) => (.error e, feed)
  | .pushed t more base c, feed =>
    match more with
    | [] => (.ok (some (t, base.shift (c + 1 - base.consumed))), feed)
    | u :: us => (.ok (some (t, .pushed u us base (c + 1))), feed)
  | .shifted base extra, feed =>
    match base.next? feed with
    | (.ok (some (t, rest)), feed) => (.ok (some (t, rest.shift extra)), feed)
    | (.ok none, feed) => (.ok none, feed)
    | (.error e, feed) => (.error e, feed)

end Remainder

/-! ## What can be read -/

/-- What is known of something offered as input: its kind, whether it is null, and the kind of its reading operation. -/
structure Offer where
  kind : String
  isNull : Bool := false
  reader : Option String := none

/-- Whether what is offered can be read as it is. -/
def Offer.isReadable (o : Offer) : Bool := o.kind == "object" && !o.isNull && o.reader == some "function"

end CommittedChoice

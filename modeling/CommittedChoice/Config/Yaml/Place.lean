import CommittedChoice.Config.Scalar

/-!
# Places in an indented text

- `Place`: what is left to read, and where in its line the reader stands;
- `Reader`: readers that move on from a place, or stop for good where the text is malformed;
- `skip`: blanks, line breaks and comments;
- `Place.atMark`: the marks between documents.
-/

namespace CommittedChoice.Config.Yaml

/-- Where a reader stands. -/
structure Place where
  rest : List Char
  /-- The character before the place. -/
  before : Char := '\n'
  line : Nat := 0
  column : Nat := 0
  /-- The spaces at the start of the line. -/
  indent : Nat := 0
  /-- Whether a tab was passed between two parts of the line. -/
  tab : Bool := false
  /-- The nodes that have a name, the last one first. -/
  named : List (String × Value) := []

/-- A reader stops for good where the text is malformed. -/
abbrev Reader := StateT Place Option

/-- Whether a character ends a line. -/
def isBreak (c : Char) : Bool := c = '\n' || c = '\r'

/-- Whether a character is blank or ends a line. -/
def isGap (c : Char) : Bool := Scalar.isGap c || isBreak c

/-- The quote around a text that is taken as it is. -/
def apostrophe : Char := Char.ofNat 39

/-- The characters that have a meaning between brackets. -/
def isFlow (c : Char) : Bool := c = ',' || c = '[' || c = ']' || c = '\x7b' || c = '\x7d'

namespace Place

/-- The next character. -/
def next? (p : Place) : Option Char := p.rest.head?

/-- The character after the next one. -/
def second? (p : Place) : Option Char := p.rest.tail.head?

/-- Past one character that ends no line. -/
def step (p : Place) : Place :=
  match p.rest with
  | [] => p
  | c :: cs => { p with rest := cs, before := c, column := p.column + 1 }

/-- Past the end of a line and up to `most` of the spaces after it. -/
def nextLineTo (most : Nat) (p : Place) : Place :=
  let rest := match p.rest with
    | '\r' :: '\n' :: cs => cs
    | _ :: cs => cs
    | [] => []
  let spaces := ((rest.take most).takeWhile (· = ' ')).length
  { p with
    rest := rest.drop spaces, before := if spaces = 0 then '\n' else ' ', line := p.line + 1, column := spaces,
    indent := spaces, tab := false }

/-- Past the end of a line and the spaces after it. -/
def nextLine (p : Place) : Place := p.nextLineTo p.rest.length

/-- What the place is followed by, as long as characters pass a test, and the place after it. -/
def takeWhile (test : Char → Bool) (p : Place) : List Char × Place :=
  let cs := p.rest.takeWhile test
  (cs, { p with rest := p.rest.drop cs.length, before := cs.getLast?.getD p.before, column := p.column + cs.length })

/-- At the end of the line. -/
def endOfLine (p : Place) : Place := (p.takeWhile fun c => !isBreak c).2

/-- Passes blanks, line breaks and, if asked, comments; gives the number of line breaks. -/
def skipFrom (comments : Bool) : Nat → Nat → Place → Nat × Place
  | 0, count, p => (count, p)
  | fuel + 1, count, p =>
    match p.next? with
    | none => (count, p)
    | some c =>
      if c = ' ' then skipFrom comments fuel count p.step
      else if c = '\t' then skipFrom comments fuel count { p.step with tab := true }
      else if c = '#' && comments then skipFrom comments fuel count p.endOfLine
      else if isBreak c then skipFrom comments fuel (count + 1) p.nextLine
      else (count, p)

/-- Passes blanks, line breaks and, if asked, comments. -/
def skip (comments : Bool) (p : Place) : Nat × Place := skipFrom comments (p.rest.length + 1) 0 p

/-- Whether a mark between documents stands here. -/
def atMark (p : Place) : Bool :=
  p.column = 0 &&
    match p.rest with
    | a :: b :: c :: cs => a = b && b = c && (a = '-' || a = '.') && ((cs.head?.map isGap).getD true)
    | _ => false

end Place

/-- Passes blanks, line breaks and comments; gives the number of line breaks. -/
def skip : Reader Nat := fun p => some (p.skip true)

/-- The next character, nothing at the end. -/
def peek : Reader (Option Char) := fun p => some (p.next?, p)

/-- Passes one character. -/
def step : Reader Unit := fun p => some ((), p.step)

/-- Passes characters as long as they pass a test. -/
def takeWhile (test : Char → Bool) : Reader (List Char) := fun p => some (p.takeWhile test)

/-- The text is malformed. -/
def refuse {α : Type} : Reader α := fun _ => none

/-- Goes back to the start if nothing was found. -/
def attempt {α : Type} (r : Reader (Option α)) : Reader (Option α) := fun p =>
  (r p).map fun (a, q) => (a, if a.isSome then q else p)

end CommittedChoice.Config.Yaml

/-!
# Texts

- `units`: the length of a text in 16-bit units. No text has more than `longest` of them;
- `isBlank`, `trim`: blank characters, line breaks among them, and a text without those around it.
-/

namespace CommittedChoice.Text

/-- The 16-bit units of one character. -/
def unitsOf (c : Char) : Nat := if c.toNat < 65536 then 1 else 2

/-- The 16-bit units of a text. -/
def units (s : String) : Nat := s.foldl (fun n c => n + unitsOf c) 0

/-- The most units that a text can have. -/
def longest : Nat := 536870888

/-- Whether a text is no longer than texts can be. A character has at least as many bytes as units, so the bytes are
looked at first. -/
def fits (s : String) : Bool := s.utf8ByteSize ≤ longest || units s ≤ longest

/-- The line breaks of a text. -/
def breaks (s : String) : Nat := s.foldl (fun n c => if c = '\n' then n + 1 else n) 0

/-- Blank characters: spaces of any width, tabs, line breaks, and the mark that may open a text. -/
def isBlank (c : Char) : Bool :=
  let n := c.toNat
  (9 ≤ n && n ≤ 13) || n == 0x20 || n == 0xa0 || n == 0x1680 || (0x2000 ≤ n && n ≤ 0x200a) || n == 0x2028 ||
    n == 0x2029 || n == 0x202f || n == 0x205f || n == 0x3000 || n == 0xfeff

/-- The characters without blanks around them. -/
def trim (cs : List Char) : List Char := ((cs.dropWhile isBlank).reverse.dropWhile isBlank).reverse

end CommittedChoice.Text

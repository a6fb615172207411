/-!
# Blanks

Two classes of blank characters: the six that separate the parts of a source text, and the wider
one of characters that may surround a number.
-/

namespace ConstantFlow.Text

/-- The blanks that separate tokens: space, tab, line feed, carriage return, vertical tab and
form feed. -/
def isBlank (c : Char) : Bool :=
  c == ' ' || ('\t' ≤ c && c ≤ '\r')

/-- The blanks with a code point beyond the first 128, as ranges. -/
def wideBlanks : List (Nat × Nat) :=
  [(0x85, 0x85), (0xa0, 0xa0), (0x1680, 0x1680), (0x2000, 0x200a), (0x2028, 0x2029),
    (0x202f, 0x202f), (0x205f, 0x205f), (0x3000, 0x3000)]

/-- The blanks that may stand around a number. -/
def isNumberBlank (c : Char) : Bool :=
  isBlank c || wideBlanks.any fun r => r.1 ≤ c.toNat && c.toNat ≤ r.2

/-- Leaves out the characters of a class at both ends. -/
def trim (p : Char → Bool) (s : List Char) : List Char :=
  ((s.dropWhile p).reverse.dropWhile p).reverse

end ConstantFlow.Text

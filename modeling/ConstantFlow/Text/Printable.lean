import ConstantFlow.Text.Unassigned

/-!
# Printable characters

Quoted text shows a character as it is only if it has a shape of its own: control and format
characters, separators other than the space, and characters for private use have none, and
neither has a code point that stands for no character.
-/

namespace ConstantFlow.Text

/-- The ranges of control, format, separator and private-use characters, without the space. -/
def shapeless : List (Nat × Nat) :=
  [(0x0, 0x1f), (0x7f, 0xa0), (0xad, 0xad), (0x600, 0x605), (0x61c, 0x61c), (0x6dd, 0x6dd),
    (0x70f, 0x70f), (0x890, 0x891), (0x8e2, 0x8e2), (0x1680, 0x1680), (0x180e, 0x180e),
    (0x2000, 0x200f), (0x2028, 0x202f), (0x205f, 0x2064), (0x2066, 0x206f), (0x3000, 0x3000),
    (0xe000, 0xf8ff), (0xfeff, 0xfeff), (0xfff9, 0xfffb), (0x110bd, 0x110bd),
    (0x110cd, 0x110cd), (0x13430, 0x13438), (0x1bca0, 0x1bca3), (0x1d173, 0x1d17a),
    (0xe0001, 0xe0001), (0xe0020, 0xe007f), (0xf0000, 0xffffd), (0x100000, 0x10fffd)]

/-- Whether a character has a shape of its own. -/
def isPrintable (c : Char) : Bool :=
  !(shapeless ++ unassigned).any fun r => r.1 ≤ c.toNat && c.toNat ≤ r.2

end ConstantFlow.Text

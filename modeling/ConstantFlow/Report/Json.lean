import ConstantFlow.Text.Hex

/-!
# JSON text

A value is written over several lines, two blanks deeper for each level, in ASCII only: other
characters are escaped, those beyond the first 65536 as a pair of surrogates.
-/

namespace ConstantFlow

/-- The JSON values that reports are made of. -/
inductive Json where
  | int (n : Int)
  | text (s : String)
  | array (items : List Json)
  | object (fields : List (String × Json))
deriving Repr, Inhabited

namespace Json

/-- One character of a JSON text. -/
def escape (c : Char) : List Char :=
  let n := c.toNat
  if c = '"' ∨ c = '\\' then ['\\', c]
  else if c = '\n' then ['\\', 'n']
  else if c = '\r' then ['\\', 'r']
  else if c = '\t' then ['\\', 't']
  else if n = 0x08 then ['\\', 'b']
  else if n = 0x0c then ['\\', 'f']
  else if 0x20 ≤ n ∧ n < 0x7f then [c]
  else if n < 0x10000 then '\\' :: 'u' :: Text.hex 4 n
  else
    let m := n - 0x10000
    '\\' :: 'u' :: Text.hex 4 (0xd800 + m / 0x400) ++ '\\' :: 'u' :: Text.hex 4 (0xdc00 + m % 0x400)

/-- A text between double quotes. -/
def quoted (s : String) : String :=
  String.ofList ('"' :: s.toList.flatMap escape ++ ['"'])

/-- A line break, and the blanks of a level. -/
def newline (level : Nat) : String :=
  String.ofList ('\n' :: List.replicate (2 * level) ' ')

/-- Items one below the other between brackets; no items at all stay on the line. -/
def block (level : Nat) (opening closing : String) (items : List String) : String :=
  if items.isEmpty then opening ++ closing
  else
    opening ++ newline (level + 1) ++ ("," ++ newline (level + 1)).intercalate items
      ++ newline level ++ closing

mutual

/-- The text of a value at a level. -/
def render (level : Nat) : Json → String
  | .int n => toString n
  | .text s => quoted s
  | .array items => block level "[" "]" (renderItems (level + 1) items)
  | .object fields => block level "\x7b" "\x7d" (renderFields (level + 1) fields)

def renderItems (level : Nat) : List Json → List String
  | [] => []
  | v :: vs => render level v :: renderItems level vs

def renderFields (level : Nat) : List (String × Json) → List String
  | [] => []
  | (key, v) :: fields => (quoted key ++ ": " ++ render level v) :: renderFields level fields

end

end Json

end ConstantFlow

import ConstantFlow.Number.Binary64
import ConstantFlow.Text.Blank
import ConstantFlow.Text.Digit

/-!
# Numerals

Which texts are numbers. Blanks around a numeral do not count, a sign may stand in front, and a
single underscore may stand between two digits.
-/

namespace ConstantFlow.Numeral

open Text (digitRun ofDigits)

/-- Whether a text starts with a minus sign, and the text behind its sign, if any. -/
def sign : List Char → Bool × List Char
  | '-' :: cs => (true, cs)
  | '+' :: cs => (false, cs)
  | cs => (false, cs)

/-- The most digits that an integer may be written with. -/
def mostDigits : Nat := 4300

/-- Whether an integer can be written: it must not have more digits than that. -/
def writable (n : Int) : Bool :=
  n.natAbs < Nat.pow 10 mostDigits

/-- What is said where an integer cannot be written. -/
def tooLong : String :=
  "Exceeds the limit (" ++ toString mostDigits ++ " digits) for integer string conversion; "
    ++ "use sys.set_int_max_str_digits() to increase the limit"

/-- The integer that a text stands for. -/
def integer? (s : List Char) : Option Int :=
  let (negative, cs) := sign (Text.trim Text.isNumberBlank s)
  match digitRun cs with
  | ([], _) => none
  | (ds, []) =>
    if ds.length ≤ mostDigits then
      let n : Int := ofDigits ds
      some (if negative then -n else n)
    else none
  | _ => none

/-- The power of ten that stands behind the digits of a number; nothing stands for zero. -/
def power? : List Char → Option Int
  | [] => some 0
  | c :: cs =>
    if c = 'e' ∨ c = 'E' then
      let (negative, cs) := sign cs
      match digitRun cs with
      | ([], _) => none
      | (ds, []) => some (if negative then -(ofDigits ds : Int) else ofDigits ds)
      | _ => none
    else none

/-- A number in digits, perhaps with a decimal point and a power of ten. -/
def decimal? (negative : Bool) (s : List Char) : Option Binary64 :=
  let (whole, cs) := digitRun s
  let (part, cs) :=
    match cs with
    | '.' :: cs => digitRun cs
    | _ => ([], cs)
  if whole.isEmpty ∧ part.isEmpty then none
  else (power? cs).map fun e => .ofDecimal negative (ofDigits (whole ++ part)) (e - part.length)

/-- The binary number that a text stands for: `inf`, `infinity` and `nan` in letters of any case,
or else a decimal. -/
def real? (s : List Char) : Option Binary64 :=
  let (negative, cs) := sign (Text.trim Text.isNumberBlank s)
  let word := String.ofList (cs.map Char.toLower)
  if word = "inf" ∨ word = "infinity" then some (.infinite negative)
  else if word = "nan" then some .nan
  else decimal? negative cs

end ConstantFlow.Numeral

import ConstantFlow.Number.Binary64

/-!
# Shortest decimals

A binary number is shown with the fewest decimal digits that read back as the same number, and
among those with the ones nearest to it.
-/

namespace ConstantFlow

/-- The number `digits * 10 ^ exponent`. -/
structure Decimal where
  digits : Nat
  exponent : Int
deriving DecidableEq, Repr

namespace Decimal

/-- The fraction `m * 2 ^ e`. -/
def fraction (m : Nat) (e : Int) : Nat × Nat :=
  if 0 ≤ e then (m <<< e.toNat, 1) else (m, 1 <<< (-e).toNat)

/-- The fraction `n / d` times `10 ^ k`. -/
def shift (n d : Nat) (k : Int) : Nat × Nat :=
  if 0 ≤ k then (n * Nat.pow 10 k.toNat, d) else (n, d * Nat.pow 10 (-k).toNat)

/-- The least `k` with `m * 2 ^ e < 10 ^ k`. The binary logarithm, times the logarithm of two to
five places, gives it up to one. -/
def magnitude (m : Nat) (e : Int) : Int :=
  let (n, d) := fraction m e
  let guess := (((m.log2 : Int) + e) * 30103).fdiv 100000
  let below (k : Int) : Bool :=
    let (a, b) := shift n d (-k)
    a < b
  if below (guess - 1) then guess - 1
  else if below guess then guess
  else if below (guess + 1) then guess + 1
  else guess + 2

/-- The decimal of `count` digits that reads back as `m * 2 ^ e`, if there is one: of the two
neighbours on that grid the nearer one, and of two equally near ones the even one. -/
def withDigits? (m : Nat) (e : Int) (count : Nat) : Option Decimal :=
  let k := magnitude m e
  let (n, d) := fraction m e
  let (a, b) := shift n d (count - k)
  let low := a / b
  let readsBack (c : Nat) : Bool :=
    Binary64.ofDecimal false c (k - count) = .finite false m e
  let nearestFirst :=
    if Binary64.roundHalfEven a b = low then [low, low + 1] else [low + 1, low]
  (nearestFirst.find? readsBack).map fun c => { digits := c, exponent := k - count }

/-- The shortest decimal that reads back as the positive number `m * 2 ^ e`. Seventeen digits
are always enough. -/
def shortest (m : Nat) (e : Int) : Decimal :=
  ((List.range 17).findSome? fun i => withDigits? m e (i + 1)).getD { digits := 0, exponent := 0 }

end Decimal

namespace Binary64

/-- The decimal digits of a number without the zeros at its end, and how many those were. -/
def significant (n : Nat) : List Char × Nat :=
  let cs := (toString n).toList.reverse
  ((cs.dropWhile (· == '0')).reverse, (cs.takeWhile (· == '0')).length)

/-- Digits with the decimal point in its place for the power of ten `exponent` of the first one.
From `10 ^ -4` to below `10 ^ 16` the number is written out, with at least one digit behind the
point; beyond that it has an exponent of at least two digits with its sign. -/
def layOut (ds : List Char) (exponent : Int) : String :=
  if -4 ≤ exponent ∧ exponent < 16 then
    if exponent < 0 then
      "0." ++ String.ofList (List.replicate (-exponent - 1).toNat '0' ++ ds)
    else
      let whole := exponent.toNat + 1
      let before := ds.take whole ++ List.replicate (whole - ds.length) '0'
      let behind := ds.drop whole
      String.ofList before ++ "." ++ (if behind.isEmpty then "0" else String.ofList behind)
  else
    let size := exponent.natAbs
    let behind := ds.drop 1
    String.ofList (ds.take 1) ++ (if behind.isEmpty then "" else "." ++ String.ofList behind)
      ++ "e" ++ (if exponent < 0 then "-" else "+")
      ++ (if size < 10 then "0" else "") ++ toString size

/-- The text of a number. -/
def text : Binary64 → String
  | .nan => "nan"
  | .infinite negative => (if negative then "-" else "") ++ "inf"
  | .finite negative m e =>
    let digits :=
      if m = 0 then "0.0"
      else
        let d := Decimal.shortest m e
        let (ds, zeros) := significant d.digits
        layOut ds (d.exponent + zeros + ds.length - 1)
    (if negative then "-" else "") ++ digits

end Binary64

end ConstantFlow

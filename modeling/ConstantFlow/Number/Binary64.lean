/-!
# Binary floating point

The numbers of the 64-bit binary format, held as a sign, a significand and a power of two, with
exact rounding in integer arithmetic.
-/

namespace ConstantFlow

/-- A number of the 64-bit binary format; a finite one is `significand * 2 ^ exponent`. -/
inductive Binary64 where
  | nan
  | infinite (negative : Bool)
  | finite (negative : Bool) (significand : Nat) (exponent : Int)
deriving DecidableEq, Repr, Inhabited

namespace Binary64

/-- The power of two of the smallest positive number. -/
def leastExponent : Int := -1074

/-- The power of two of the greatest finite numbers. -/
def greatestExponent : Int := 971

/-- `n / d` and `2 ^ e` as one fraction `n / (d * 2 ^ e)`. -/
def scaleDown (n d : Nat) (e : Int) : Nat × Nat :=
  if 0 ≤ e then (n, d <<< e.toNat) else (n <<< (-e).toNat, d)

/-- The nearest integer to a fraction, a half going to the even neighbour. -/
def roundHalfEven (n d : Nat) : Nat :=
  let q := n / d
  let r := n % d
  if 2 * r < d then q else if d < 2 * r then q + 1 else q + q % 2

/-- The exponent with which the significand of `n / d` has 53 bits, as far as the format
reaches down. The two logarithms give it up to one. -/
def exponentFor (n d : Nat) : Int :=
  let low : Int := n.log2 - d.log2 - 53
  let (a, b) := scaleDown n d low
  max leastExponent (if a / b < 1 <<< 53 then low else low + 1)

/-- The number nearest to the fraction `n / d`, a tie going to the even significand. -/
def ofFraction (negative : Bool) (n d : Nat) : Binary64 :=
  if n = 0 then .finite negative 0 leastExponent
  else
    let e := exponentFor n d
    let (a, b) := scaleDown n d e
    let m := roundHalfEven a b
    -- rounding up may carry into a 54th bit
    let (m, e) := if m = 1 <<< 53 then (1 <<< 52, e + 1) else (m, e)
    if e > greatestExponent then .infinite negative else .finite negative m e

/-- The number nearest to `m * 10 ^ e`. Powers far beyond the format are not computed. -/
def ofDecimal (negative : Bool) (m : Nat) (e : Int) : Binary64 :=
  if m = 0 then .finite negative 0 leastExponent
  else if 400 < e then .infinite negative
  else if 0 ≤ e then ofFraction negative (m * Nat.pow 10 e.toNat) 1
  else if (m.log2 : Int) + 1101 < -3 * e then .finite negative 0 leastExponent
  else ofFraction negative m (Nat.pow 10 (-e).toNat)

end Binary64

end ConstantFlow

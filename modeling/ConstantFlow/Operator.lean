import ConstantFlow.Word

/-!
# Binary operators

Seventeen operators in four families, their spellings, and their effect on integers. Folding
works on unbounded integers and wraps the result once; only division and remainder by zero have
no result.
-/

namespace ConstantFlow

/-- The operators of binary expressions. -/
inductive BinOp where
  | add | sub | mul | div | rem
  | shl | shr | ushr
  | or | and | xor
  | eq | ne | lt | gt | le | ge
deriving DecidableEq, Repr, Inhabited

namespace BinOp

/-- Every operator, family by family. -/
def all : List BinOp :=
  [.add, .sub, .mul, .div, .rem, .shl, .shr, .ushr, .or, .and, .xor,
    .eq, .ne, .lt, .gt, .le, .ge]

/-- The spelling of an operator. -/
def symbol : BinOp → String
  | .add => "+"
  | .sub => "-"
  | .mul => "*"
  | .div => "/"
  | .rem => "%"
  | .shl => "<<"
  | .shr => ">>"
  | .ushr => ">>>"
  | .or => "|"
  | .and => "&"
  | .xor => "^"
  | .eq => "=="
  | .ne => "!="
  | .lt => "<"
  | .gt => ">"
  | .le => "<="
  | .ge => ">="

/-- The operator spelled `s`, if there is one. -/
def ofSymbol? (s : String) : Option BinOp :=
  all.find? (·.symbol == s)

/-- Whether the operator divides, and so has no result for a divisor of zero. -/
def divides : BinOp → Bool
  | .div | .rem => true
  | _ => false

/-! ## Folding -/

/-- The quotient of the absolute values, negated where just one operand is negative. -/
def quotient (a b : Int) : Int :=
  let q : Int := (a.natAbs / b.natAbs : Nat)
  if a < 0 ↔ b < 0 then q else -q

/-- What the quotient leaves of the dividend. -/
def remainder (a b : Int) : Int :=
  a - b * quotient a b

/-- Only the low five bits of a shift distance count, in two's complement. -/
def shiftDistance (b : Int) : Nat :=
  Word.masked 31 b

/-- The low word of an integer in two's complement. A bitwise operation treats each bit alone,
so the low word of its result depends on the low words of its operands only. -/
def lowWord (n : Int) : BitVec 32 :=
  BitVec.ofInt 32 n

/-- One for a condition that holds, zero for one that does not. -/
def truth (p : Prop) [Decidable p] : Int :=
  if p then 1 else 0

/-- The integer that an operator gives, before it is wrapped. Quotients truncate toward zero and
the remainder takes the sign of the dividend; `>>` rounds down and `>>>` reads its left operand
as an unsigned word. -/
def compute (op : BinOp) (a b : Int) : Int :=
  match op with
  | .add => a + b
  | .sub => a - b
  | .mul => a * b
  | .div => quotient a b
  | .rem => remainder a b
  | .shl => a <<< shiftDistance b
  | .shr => a >>> shiftDistance b
  | .ushr => (Word.masked Word.mask a >>> shiftDistance b : Nat)
  | .or => (lowWord a ||| lowWord b).toInt
  | .and => (lowWord a &&& lowWord b).toInt
  | .xor => (lowWord a ^^^ lowWord b).toInt
  | .eq => truth (a = b)
  | .ne => truth (a ≠ b)
  | .lt => truth (a < b)
  | .gt => truth (a > b)
  | .le => truth (a ≤ b)
  | .ge => truth (a ≥ b)

/-- Why two integers cannot be folded. -/
inductive FoldError where
  | zeroDivisor
deriving DecidableEq, Repr

/-- The word that `op` gives on two integers of any size. -/
def fold (op : BinOp) (a b : Int) : Except FoldError Int32 :=
  if op.divides ∧ b = 0 then .error .zeroDivisor
  else .ok (Word.ofInt (op.compute a b))

/-- Folding fails exactly on a division by zero. -/
theorem fold_eq_error_iff (op : BinOp) (a b : Int) (e : FoldError) :
    op.fold a b = .error e ↔ op.divides = true ∧ b = 0 := by
  cases e
  simp only [fold]
  split <;> simp_all

end BinOp

end ConstantFlow

import ConstantFlow.Expression
import ConstantFlow.Fact

/-!
# Abstract evaluation

The value of an expression under a fact. Only variables, literals and binary operations are
evaluated precisely; every other expression may have any value.
-/

namespace ConstantFlow

/-- The value of an operation on two values. A divisor known to be zero gives no information,
whatever the dividend is; otherwise an operand that is not a constant makes the result one that
is not a constant, and an unknown operand makes it unknown. -/
def BinOp.onValues (op : BinOp) (a b : Value) : Value :=
  if op.divides ∧ b = .const 0 then .undefined
  else
    match a, b with
    | .nac, _ => .nac
    | _, .nac => .nac
    | .undefined, _ => .undefined
    | _, .undefined => .undefined
    | .const c, .const d =>
      match op.fold c.toInt d.toInt with
      | .ok w => .const w
      -- no fold is left without a result: zero divisors were sorted out above
      | .error _ => .undefined

/-- The value of an expression, given what a fact says about its variables. -/
def Expr.eval (f : Fact) : Expr → Value
  | .var x => f.get x
  | .lit n => .ofInt n
  | .binary op l r => op.onValues (l.eval f) (r.eval f)
  | .neg _ => .nac
  | .call _ _ => .nac
  | .field _ _ => .nac

end ConstantFlow

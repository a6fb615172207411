import ConstantFlow.Expression

/-!
# Expressions as trees

Induction over expressions, where the arguments of a call are taken as a whole, and the variables
that occur in an expression.

Main results:

* `inductionOnParts`: induction with one case for each kind of expression
* `varsAll_eq_flatMap`: the variables of arguments are those of each of them
-/

namespace ConstantFlow.Expr

/-- A property of expressions holds of all of them if it passes from the parts of an expression to
the expression. -/
theorem inductionOnParts {P : Expr → Prop} (var : ∀ x, P (.var x)) (lit : ∀ n, P (.lit n))
    (binary : ∀ op l r, P l → P r → P (.binary op l r)) (neg : ∀ e, P e → P (.neg e))
    (call : ∀ m args, (∀ e ∈ args, P e) → P (.call m args))
    (field : ∀ x f, P (.field x f)) (e : Expr) : P e := by
  apply @Expr.rec P fun args => ∀ e ∈ args, P e
  case var => exact var
  case lit => exact lit
  case binary => exact binary
  case neg => exact neg
  case call => exact call
  case field => exact field
  case nil =>
    intro e he
    cases he
  case cons =>
    intro head tail hhead htail
    exact List.forall_mem_cons.mpr ⟨hhead, htail⟩

mutual

/-- The variables that occur in an expression. -/
def vars : Expr → List Var
  | .var x => [x]
  | .lit _ => []
  | .binary _ l r => l.vars ++ r.vars
  | .neg e => e.vars
  | .call _ args => varsAll args
  | .field x _ => [x]

/-- The variables that occur in several expressions. -/
def varsAll : List Expr → List Var
  | [] => []
  | e :: es => e.vars ++ varsAll es

end

theorem varsAll_eq_flatMap (es : List Expr) : varsAll es = es.flatMap vars := by
  induction es with
  | nil => rw [varsAll, List.flatMap_nil]
  | cons e es ih => rw [varsAll, ih, List.flatMap_cons]

end ConstantFlow.Expr

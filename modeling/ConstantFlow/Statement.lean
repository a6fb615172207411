import ConstantFlow.Expression

/-!
# Statements

An assignment is the only statement that gives a variable a value. Its target is a variable or a
field of an object.
-/

namespace ConstantFlow

/-- The left-hand side of an assignment. -/
inductive Target where
  | var (x : Var)
  | field (base : Var) (name : String)
deriving DecidableEq, Repr, Inhabited

/-- The text of a target, as it would stand in an expression. -/
def Target.text : Target → String
  | .var x => x.name
  | .field x f => x.name ++ "." ++ f

/-- A statement of the intermediate code. -/
inductive Stmt where
  | nop
  | assign (target : Target) (value : Expr)
  | branch (condition : Expr)
  | jump
  | ret (value : Option Expr)
  | call (method : String) (args : List Expr)
deriving DecidableEq, Repr, Inhabited

namespace Stmt

def text : Stmt → String
  | .nop => "nop"
  | .assign t e => t.text ++ " = " ++ e.text
  | .branch c => "if (" ++ c.text ++ ")"
  | .jump => "goto"
  | .ret none => "return"
  | .ret (some e) => "return " ++ e.text
  | .call m args => (Expr.call m args).text

/-- Whether every literal of a statement can be written. -/
def writable : Stmt → Bool
  | .assign _ e | .branch e | .ret (some e) => e.writable
  | .call _ args => Expr.allWritable args
  | .nop | .jump | .ret none => true

/-- The tracked variable that a statement assigns, with its new value. -/
def definition? : Stmt → Option (Var × Expr)
  | .assign (.var x) e => if x.tracked then some (x, e) else none
  | _ => none

end Stmt

end ConstantFlow

import ConstantFlow.Loading.Error
import ConstantFlow.Statement

/-!
# Loading expressions and statements

The forms of the intermediate code. Variables stand for themselves and must be declared; every
other expression and every statement is a list with a symbol at its head.
-/

namespace ConstantFlow.Loading

/-! ## Shapes -/

/-- The name of a symbol. -/
def symbolName : Form → Except LoadError String
  | .symbol s => .ok s
  | f => .error (.misfit .notSymbol f)

/-- The value of an integer. -/
def integerValue : Form → Except LoadError Int
  | .integer n => .ok n
  | f => .error (.misfit .notInteger f)

/-- The elements of a list. -/
def listItems (tag : String) : Form → Except LoadError (List Form)
  | .list items => .ok items
  | f => .error (.misfit (.notList tag) f)

/-- The fault of a list with too few or too many elements. -/
def wrongLength {α : Type} (tag : String) (items : List Form) : Except LoadError α :=
  .error (.misfit (.wrongLength tag) (.list items))

/-! ## Variables -/

/-- The declared variables, in the order of their declarations. -/
abbrev Scope := List Var

/-- The variable of that name. -/
def Scope.find? (scope : Scope) (name : String) : Option Var :=
  List.find? (·.name == name) scope

/-- The variable that a symbol stands for. -/
def Scope.resolve (scope : Scope) (f : Form) : Except LoadError Var := do
  let name ← symbolName f
  match scope.find? name with
  | some x => .ok x
  | none => .error (.misfit (.undeclared name) f)

/-! ## Expressions -/

/-- The object and the name of a field, from a list of three whose head has been dealt with. -/
def fieldParts (scope : Scope) (items : List Form) : Except LoadError (Var × String) :=
  match items with
  | [_, base, name] => do
    let x ← scope.resolve base
    let f ← symbolName name
    return (x, f)
  | _ => wrongLength "field" items

/-- The results of several loads, or the first error among them. -/
def inOrder {α : Type} : List (Except LoadError α) → Except LoadError (List α)
  | [] => .ok []
  | r :: rs => do
    let a ← r
    let as ← inOrder rs
    return a :: as

/-- The expression of a list with a head, where `values` are the expressions of the arguments.
The head decides which of them count; an argument that is no expression does no harm where a
name is asked for. -/
def compound (scope : Scope) (head : Form) (args : List Form)
    (values : List (Except LoadError Expr)) : Except LoadError Expr := do
  let tag ← symbolName head
  if tag = "neg" then
    match values with
    | [operand] =>
      let e ← operand
      return .neg e
    | _ => wrongLength tag (head :: args)
  else if tag = "invoke" then
    match args, values with
    | method :: _, _ :: values =>
      let m ← symbolName method
      let es ← inOrder values
      return .call m es
    | _, _ => wrongLength tag (head :: args)
  else if tag = "field" then
    let (x, f) ← fieldParts scope (head :: args)
    return .field x f
  else
    match BinOp.ofSymbol? tag with
    | none => .error (.misfit (.unknownExpression tag) (.list (head :: args)))
    | some op =>
      match values with
      | [left, right] =>
        let l ← left
        let r ← right
        return .binary op l r
      | _ => wrongLength tag (head :: args)

mutual

/-- The expression of a form. -/
def expression (scope : Scope) : Form → Except LoadError Expr
  | .integer n => .ok (.lit n)
  | .symbol s => do
    let x ← scope.resolve (.symbol s)
    return .var x
  | .list [] => wrongLength "expression" []
  | .list (head :: args) => compound scope head args (eachExpression scope args)
  | f => .error (.misfit (.notList "expression") f)

/-- The expression of each of several forms. -/
def eachExpression (scope : Scope) : List Form → List (Except LoadError Expr)
  | [] => []
  | f :: fs => expression scope f :: eachExpression scope fs

end

/-- The expressions of several forms. -/
def expressions (scope : Scope) (forms : List Form) : Except LoadError (List Expr) :=
  inOrder (eachExpression scope forms)

theorem eachExpression_eq_map (scope : Scope) (forms : List Form) :
    eachExpression scope forms = forms.map (expression scope) := by
  induction forms with
  | nil => simp [eachExpression]
  | cons f fs ih => simp [eachExpression, ih]

/-! ## Statements -/

/-- The target of an assignment: a variable, or a list that names a field, whatever stands at
its head. -/
def target (scope : Scope) : Form → Except LoadError Target
  | .list items => do
    let (x, f) ← fieldParts scope items
    return .field x f
  | f => do
    let x ← scope.resolve f
    return .var x

/-- The statement of a form. -/
def statement (scope : Scope) (form : Form) : Except LoadError Stmt := do
  match ← listItems "statement" form with
  | [] => wrongLength "statement" []
  | head :: args =>
    let tag ← symbolName head
    match tag, args with
    | "assign", [left, right] =>
      let t ← target scope left
      let e ← expression scope right
      return .assign t e
    | "if", [condition] =>
      let e ← expression scope condition
      return .branch e
    | "goto", [] => return .jump
    | "return", [] => return .ret none
    | "return", [value] =>
      let e ← expression scope value
      return .ret (some e)
    | "nop", [] => return .nop
    | "invoke", method :: args =>
      let m ← symbolName method
      let es ← expressions scope args
      return .call m es
    | _, _ =>
      if tag ∈ ["assign", "if", "goto", "return", "nop", "invoke"] then
        wrongLength tag (head :: args)
      else .error (.misfit (.unknownStatement tag) form)

end ConstantFlow.Loading

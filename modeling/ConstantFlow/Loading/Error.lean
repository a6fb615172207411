import ConstantFlow.Form.Display
import ConstantFlow.Number.Numeral

/-!
# Loading errors

What can be wrong with the form of a procedure. An error carries the form in which the fault was
found. A message that is to show a number cannot be worded if the number has too many digits, and
then there is nothing to tell but that.
-/

namespace ConstantFlow

/-- How a form differs from what its place asks for. The `tag` of a list is the word under which
messages speak of it. -/
inductive Misfit where
  | notSymbol
  | notInteger
  | notList (tag : String)
  | wrongLength (tag : String)
  | notProcedure
  | declaredTwice (name : String)
  | undeclared (name : String)
  | unknownExpression (head : String)
  | unknownStatement (head : String)
  | unknownItem (head : String)
  | noNodes (procedure : String)
  | duplicateId (id : Int)
  | unknownSuccessor (id : Int)
deriving DecidableEq, Repr

/-- Why a procedure cannot be loaded. -/
inductive LoadError where
  | unreadable (reason : String)
  | misfit (what : Misfit) (form : Form)
  /-- The number at fault cannot be written. -/
  | unwritable (n : Int)
deriving DecidableEq, Repr

/-- The error about a number that does not fit where it stands. -/
def LoadError.misnumbered (what : Int → Misfit) (n : Int) (form : Form) : LoadError :=
  if Numeral.writable n then .misfit (what n) form else .unwritable n

/-- The wording of a misfit of the given form. -/
def Misfit.message (form : Form) : Misfit → String
  | .notSymbol => "Expected symbol, got " ++ form.kind
  | .notInteger => "Expected integer, got " ++ form.kind
  | .notList tag => "Expected (" ++ tag ++ " ...) list, got " ++ form.kind
  | .wrongLength tag => "Wrong number of elements in (" ++ tag ++ " ...)"
  | .notProcedure => "Expected (procedure ...)"
  | .declaredTwice name => "Variable '" ++ name ++ "' declared twice"
  | .undeclared name => "Undeclared variable '" ++ name ++ "'"
  | .unknownExpression head => "Unknown expression form '" ++ head ++ "'"
  | .unknownStatement head => "Unknown statement form '" ++ head ++ "'"
  | .unknownItem head => "Unknown procedure item '" ++ head ++ "'"
  | .noNodes procedure => "Procedure '" ++ procedure ++ "' has no nodes"
  | .duplicateId id => "Duplicate node id " ++ toString id
  | .unknownSuccessor id => "Edge to unknown node " ++ toString id

/-- The wording of a loading error; the form at fault is shown, unless it is the null form. -/
def LoadError.message : LoadError → String
  | .unreadable reason => "Malformed S-expression: " ++ reason
  | .misfit what .null => what.message .null
  | .misfit what form => what.message form ++ " (in " ++ form.display ++ ")"
  | .unwritable _ => Numeral.tooLong

end ConstantFlow

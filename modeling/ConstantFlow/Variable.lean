/-!
# Types and variables

A variable is a name together with its declared type; two variables are the same only if both
agree. The analysis tracks those whose type fits in a 32-bit word.
-/

namespace ConstantFlow

/-- The built-in types. -/
inductive Primitive where
  | byte | short | int | char | boolean | long | float | double
deriving DecidableEq, Repr, Inhabited

namespace Primitive

/-- Every built-in type, in the order of the declaration. -/
def all : List Primitive :=
  [.byte, .short, .int, .char, .boolean, .long, .float, .double]

/-- The spelling of a built-in type. -/
def name : Primitive → String
  | .byte => "byte"
  | .short => "short"
  | .int => "int"
  | .char => "char"
  | .boolean => "boolean"
  | .long => "long"
  | .float => "float"
  | .double => "double"

/-- Whether every value of the type fits in a word. -/
def fitsWord : Primitive → Bool
  | .byte | .short | .int | .char | .boolean => true
  | .long | .float | .double => false

end Primitive

/-- A declared type: built in, or a reference type known by its name alone. -/
inductive VarType where
  | primitive (p : Primitive)
  | reference (name : String)
deriving DecidableEq, Repr, Inhabited

namespace VarType

/-- The built-in type spelled `s`, or else the reference type of that name. -/
def ofName (s : String) : VarType :=
  match Primitive.all.find? (·.name == s) with
  | some p => .primitive p
  | none => .reference s

/-- Reference types never fit a word, whatever their name is. -/
def fitsWord : VarType → Bool
  | .primitive p => p.fitsWord
  | .reference _ => false

end VarType

/-- A local variable or formal parameter. -/
structure Var where
  name : String
  type : VarType
deriving DecidableEq, Repr, Inhabited

/-- Whether the analysis keeps knowledge about the variable. -/
def Var.tracked (x : Var) : Bool :=
  x.type.fitsWord

end ConstantFlow

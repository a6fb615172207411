import ConstantFlow.Word

/-!
# The flat lattice of values

What is known about an integer variable at a program point: nothing yet (`undefined`), that it holds
one particular word (`const c`), or that it is not a constant (`nac`). The order has height two,
`undefined ≤ const c ≤ nac`, and two different constants are unrelated.
-/

namespace ConstantFlow

/-- Knowledge about one integer variable. -/
inductive Value where
  | undefined
  | const (c : Int32)
  | nac
deriving DecidableEq, Repr, Inhabited

namespace Value

/-- The constant an unbounded integer wraps to. -/
def ofInt (n : Int) : Value :=
  .const (Word.ofInt n)

/-- The kinds of knowledge. -/
inductive Kind where
  | undefined | const | nac
deriving DecidableEq, Repr

/-- The value of a kind and a number. The number counts for constants only, where it wraps. -/
def ofKind (k : Kind) (n : Int) : Value :=
  match k with
  | .undefined => .undefined
  | .const => .ofInt n
  | .nac => .nac

/-- `UNDEF`, `NAC`, or the constant in decimal behind a `#`. -/
def text : Value → String
  | .undefined => "UNDEF"
  | .const c => "#" ++ toString c.toInt
  | .nac => "NAC"

def isUndef : Value → Bool
  | .undefined => true
  | _ => false

def isConst : Value → Bool
  | .const _ => true
  | _ => false

def isNac : Value → Bool
  | .nac => true
  | _ => false

/-! ## The constant of a value -/

/-- Asking a value for a constant that it does not hold. -/
inductive AccessError where
  | notConstant (v : Value)
deriving DecidableEq, Repr

/-- The word that a constant holds. -/
def constant : Value → Except AccessError Int32
  | .const c => .ok c
  | v => .error (.notConstant v)

/-! ## Order and join -/

/-- The information order: `undefined` is below everything and `nac` above everything. -/
def Le (a b : Value) : Prop :=
  a = .undefined ∨ b = .nac ∨ a = b

instance : LE Value where
  le := Le

instance (a b : Value) : Decidable (a ≤ b) :=
  inferInstanceAs (Decidable (a = .undefined ∨ b = .nac ∨ a = b))

/-- What is known where two paths meet: `undefined` is neutral, `nac` absorbs, equal constants
survive and different ones give `nac`. -/
def join : Value → Value → Value
  | .undefined, b => b
  | a, .undefined => a
  | .const a, .const b => if a = b then .const a else .nac
  | .nac, _ => .nac
  | _, .nac => .nac

end Value

end ConstantFlow

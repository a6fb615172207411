import ConstantFlow.Number.Numeral
import ConstantFlow.Operator
import ConstantFlow.Variable

/-!
# Expressions

Variables, integer literals of any size and binary operations are evaluated precisely; negation,
calls and field reads are carried along for their text and their structure. Texts have no
parentheses, and there is one only if no literal has too many digits.
-/

namespace ConstantFlow

/-- An expression of the intermediate code. -/
inductive Expr where
  | var (x : Var)
  | lit (n : Int)
  | binary (op : BinOp) (left right : Expr)
  | neg (operand : Expr)
  | call (method : String) (args : List Expr)
  | field (base : Var) (name : String)
deriving Repr, Inhabited

namespace Expr

/-! ## Text -/

mutual

/-- The text of an expression, operators between blanks. -/
def text : Expr → String
  | .var x => x.name
  | .lit n => toString n
  | .binary op l r => l.text ++ " " ++ op.symbol ++ " " ++ r.text
  | .neg e => "-" ++ e.text
  | .call m args => m ++ "(" ++ ", ".intercalate (texts args) ++ ")"
  | .field x f => x.name ++ "." ++ f

/-- The texts of several expressions. -/
def texts : List Expr → List String
  | [] => []
  | e :: es => e.text :: texts es

end

mutual

/-- Whether every literal of an expression can be written. -/
def writable : Expr → Bool
  | .lit n => Numeral.writable n
  | .binary _ l r => l.writable && r.writable
  | .neg e => e.writable
  | .call _ args => allWritable args
  | .var _ | .field _ _ => true

/-- Whether every literal of several expressions can be written. -/
def allWritable : List Expr → Bool
  | [] => true
  | e :: es => e.writable && allWritable es

end

/-! ## Equality

Expressions contain lists of expressions, so equality is decided by two functions that call each
other. -/

mutual

/-- Whether two expressions are the same tree. -/
def same : Expr → Expr → Bool
  | .var x, .var y => x == y
  | .lit m, .lit n => m == n
  | .binary o a b, .binary p c d => o == p && same a c && same b d
  | .neg a, .neg b => same a b
  | .call m as, .call n bs => m == n && sameAll as bs
  | .field x f, .field y g => x == y && f == g
  | _, _ => false

/-- Whether two lists hold the same trees in the same order. -/
def sameAll : List Expr → List Expr → Bool
  | [], [] => true
  | a :: as, b :: bs => same a b && sameAll as bs
  | _, _ => false

end

mutual

theorem eq_of_same : ∀ {a b : Expr}, same a b = true → a = b
  | .var _, b, h => by cases b <;> simp_all [same]
  | .lit _, b, h => by cases b <;> simp_all [same]
  | .binary _ l r, b, h => by
    cases b <;> simp [same] at h
    case binary o l' r' =>
      obtain ⟨⟨ho, hl⟩, hr⟩ := h
      rw [ho, eq_of_same hl, eq_of_same hr]
  | .neg e, b, h => by
    cases b <;> simp [same] at h
    case neg e' => rw [eq_of_same h]
  | .call _ args, b, h => by
    cases b <;> simp [same] at h
    case call m' args' => rw [h.1, eq_of_sameAll h.2]
  | .field _ _, b, h => by cases b <;> simp_all [same]

theorem eq_of_sameAll : ∀ {as bs : List Expr}, sameAll as bs = true → as = bs
  | [], [], _ => rfl
  | [], _ :: _, h => by simp [sameAll] at h
  | _ :: _, [], h => by simp [sameAll] at h
  | a :: as, b :: bs, h => by
    simp [sameAll] at h
    rw [eq_of_same h.1, eq_of_sameAll h.2]

end

mutual

theorem same_self : ∀ a : Expr, same a a = true
  | .var _ => by simp [same]
  | .lit _ => by simp [same]
  | .binary _ l r => by simp [same, same_self l, same_self r]
  | .neg e => by simp [same, same_self e]
  | .call _ args => by simp [same, sameAll_self args]
  | .field _ _ => by simp [same]

theorem sameAll_self : ∀ as : List Expr, sameAll as as = true
  | [] => by simp [sameAll]
  | a :: as => by simp [sameAll, same_self a, sameAll_self as]

end

instance : DecidableEq Expr := fun a b =>
  if h : same a b = true then isTrue (eq_of_same h)
  else isFalse fun e => h (e ▸ same_self a)

end Expr

end ConstantFlow

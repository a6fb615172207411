import ConstantFlow.Number.Binary64

/-!
# Forms

The trees that source texts are read into: atoms, lists between parentheses, lists between
brackets, and quoted forms.
-/

namespace ConstantFlow

/-- A form. `truth` and `null` have no spelling of their own in source texts. -/
inductive Form where
  | integer (n : Int)
  | real (x : Binary64)
  | truth (b : Bool)
  | null
  | text (s : String)
  | symbol (s : String)
  | list (items : List Form)
  | quoted (f : Form)
  | bracketed (items : List Form)
deriving Repr, Inhabited

namespace Form

/-- The word for the kind of a form in messages. -/
def kind : Form → String
  | .integer _ => "int"
  | .real _ => "float"
  | .truth _ => "bool"
  | .null => "NoneType"
  | .text _ => "str"
  | .symbol _ => "Symbol"
  | .list _ => "list"
  | .quoted _ => "Quoted"
  | .bracketed _ => "Brackets"

/-! ## Equality

Forms contain lists of forms, so equality is decided by two functions that call each other. -/

mutual

/-- Whether two forms are the same tree. -/
def same : Form → Form → Bool
  | .integer m, .integer n => m == n
  | .real x, .real y => x == y
  | .truth a, .truth b => a == b
  | .null, .null => true
  | .text s, .text t => s == t
  | .symbol s, .symbol t => s == t
  | .list as, .list bs => sameAll as bs
  | .quoted a, .quoted b => same a b
  | .bracketed as, .bracketed bs => sameAll as bs
  | _, _ => false

/-- Whether two lists hold the same trees in the same order. -/
def sameAll : List Form → List Form → Bool
  | [], [] => true
  | a :: as, b :: bs => same a b && sameAll as bs
  | _, _ => false

end

mutual

theorem eq_of_same : ∀ {a b : Form}, same a b = true → a = b
  | .integer _, b, h => by cases b <;> simp_all [same]
  | .real _, b, h => by cases b <;> simp_all [same]
  | .truth _, b, h => by cases b <;> simp_all [same]
  | .null, b, h => by cases b <;> simp_all [same]
  | .text _, b, h => by cases b <;> simp_all [same]
  | .symbol _, b, h => by cases b <;> simp_all [same]
  | .list as, b, h => by
    cases b <;> simp [same] at h
    case list bs => rw [eq_of_sameAll h]
  | .quoted a, b, h => by
    cases b <;> simp [same] at h
    case quoted b => rw [eq_of_same h]
  | .bracketed as, b, h => by
    cases b <;> simp [same] at h
    case bracketed bs => rw [eq_of_sameAll h]

theorem eq_of_sameAll : ∀ {as bs : List Form}, sameAll as bs = true → as = bs
  | [], [], _ => rfl
  | [], _ :: _, h => by simp [sameAll] at h
  | _ :: _, [], h => by simp [sameAll] at h
  | a :: as, b :: bs, h => by
    simp [sameAll] at h
    rw [eq_of_same h.1, eq_of_sameAll h.2]

end

mutual

theorem same_self : ∀ a : Form, same a a = true
  | .integer _ => by simp [same]
  | .real _ => by simp [same]
  | .truth _ => by simp [same]
  | .null => by simp [same]
  | .text _ => by simp [same]
  | .symbol _ => by simp [same]
  | .list as => by simp [same, sameAll_self as]
  | .quoted a => by simp [same, same_self a]
  | .bracketed as => by simp [same, sameAll_self as]

theorem sameAll_self : ∀ as : List Form, sameAll as as = true
  | [] => by simp [sameAll]
  | a :: as => by simp [sameAll, same_self a, sameAll_self as]

end

instance : DecidableEq Form := fun a b =>
  if h : same a b = true then isTrue (eq_of_same h)
  else isFalse fun e => h (e ▸ same_self a)

end Form

end ConstantFlow

import ConstantFlow.Entries
import ConstantFlow.Value
import ConstantFlow.Variable

/-!
# Facts

A fact is what is known about the variables at one program point. A variable that is not listed
is `undefined`, and the operations never list one as `undefined`. Entries keep the order in which
their variables were first bound; the order shows only in the text of a fact that binds two
variables of one name.
-/

namespace ConstantFlow

/-- Knowledge about finitely many variables. -/
structure Fact where
  entries : List (Var × Value)
deriving DecidableEq, Repr, Inhabited

namespace Fact

/-- The fact that knows nothing. -/
def empty : Fact where
  entries := []

/-- The value listed for `x`, if any. -/
def get? (f : Fact) (x : Var) : Option Value :=
  f.entries.lookup x

/-- What the fact says about `x`. -/
def get (f : Fact) (x : Var) : Value :=
  (f.get? x).getD .undefined

/-- The number of listed variables. -/
def size (f : Fact) : Nat :=
  f.entries.length

def keys (f : Fact) : List Var :=
  f.entries.map Prod.fst

def contains (f : Fact) (x : Var) : Bool :=
  (f.get? x).isSome

/-- Two facts are equal as maps if they list the same variables with the same values, in
whatever order. -/
def same (f g : Fact) : Bool :=
  f.size == g.size && f.entries.all fun e => g.get? e.1 == some e.2

/-! ## Changing a fact

Every change reports whether it had an effect. -/

/-- Forgets `x`. -/
def erase (f : Fact) (x : Var) : Fact where
  entries := f.entries.filter fun e => e.1 ≠ x

/-- Forgets `x` and returns the value that was listed for it, if any. -/
def remove (f : Fact) (x : Var) : Fact × Option Value :=
  (f.erase x, f.get? x)

/-- Binds `x` to `v`, where `undefined` forgets it, and reports whether the fact changed. -/
def update (f : Fact) (x : Var) (v : Value) : Fact × Bool :=
  if v = .undefined then (f.erase x, f.contains x)
  else ({ entries := Entries.put x v f.entries }, f.get? x ≠ some v)

/-- Overwrites a fact with every entry of `source`; variables listed only here stay. -/
def overwrite (f source : Fact) : Fact × Bool :=
  source.entries.foldl
    (fun acc e =>
      let next := acc.1.update e.1 e.2
      (next.1, acc.2 || next.2))
    (f, false)

/-- Joins the values of `source` into a fact. -/
def join (f source : Fact) : Fact :=
  source.entries.foldl (fun acc e => (acc.update e.1 (e.2.join (acc.get e.1))).1) f

/-- The fact of a list of bindings. The last binding of a variable counts and stands in the place
of its first; variables bound to `undefined` are left out. -/
def ofList (bindings : List (Var × Value)) : Fact :=
  (Entries.ofList bindings).foldl (fun f e => (f.update e.1 e.2).1) empty

/-! ## What the operations say about a variable -/

theorem get_empty (x : Var) : empty.get x = .undefined := rfl

theorem get?_erase (f : Fact) (x y : Var) :
    (f.erase x).get? y = if y = x then none else f.get? y := by
  simp only [get?, erase]
  induction f.entries with
  | nil => simp
  | cons e es ih =>
    by_cases he : e.1 = x
    · have hkeep : (e :: es).filter (fun e => e.1 ≠ x) = es.filter fun e => e.1 ≠ x := by
        simp [he]
      rw [hkeep, ih, Entries.lookup_entry]
      by_cases h : y = x <;> simp [h, he]
    · have hkeep : (e :: es).filter (fun e => e.1 ≠ x) = e :: es.filter fun e => e.1 ≠ x := by
        simp [he]
      rw [hkeep, Entries.lookup_entry, Entries.lookup_entry, ih]
      by_cases hy : y = e.1
      · simp [hy, he]
      · simp [hy]

theorem get_erase (f : Fact) (x y : Var) :
    (f.erase x).get y = if y = x then .undefined else f.get y := by
  by_cases h : y = x <;> simp [get, get?_erase, h]

/-- An update sets one variable and leaves the others alone. -/
theorem get_update (f : Fact) (x y : Var) (v : Value) :
    (f.update x v).1.get y = if y = x then v else f.get y := by
  by_cases hv : v = .undefined
  · simp [update, hv, get_erase]
  · by_cases h : y = x <;> simp [update, hv, get, get?, Entries.lookup_put, h]

/-! ## Text -/

/-- The entries by the name of their variable, in code point order; entries of one name keep
their order. -/
def byName (f : Fact) : List (Var × Value) :=
  f.entries.mergeSort fun a b => decide (a.1.name ≤ b.1.name)

/-- The entries by name, between braces. -/
def text (f : Fact) : String :=
  "\x7b" ++ ", ".intercalate (f.byName.map fun e => e.1.name ++ "=" ++ e.2.text) ++ "\x7d"

end Fact

end ConstantFlow

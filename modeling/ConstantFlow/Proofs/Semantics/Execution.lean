import ConstantFlow.FlowGraph.Basic
import ConstantFlow.Proofs.Semantics.Machine

/-!
# Executing a procedure

What a procedure does when it runs. A store says which words the tracked variables hold; a
parameter may hold any word at the start, and nothing else holds one. An assignment to a tracked
variable stores a word that its right-hand side denotes, every other statement leaves the store
alone, and control then goes on along any edge. Execution stops where an expression denotes no
word: it reads a variable that holds none, or divides by zero.

Main results:

* `Denotes`: the words that an expression may denote
* `Executes`: the stores that a statement may leave
* `Arrives`: the stores with which control may arrive at a node
-/

namespace ConstantFlow

/-- A variable that the analysis keeps track of. -/
abbrev TrackedVar := { x : Var // x.tracked = true }

/-- The words that the tracked variables hold. -/
def Store := TrackedVar → Option Int32

namespace Store

/-- The word that a variable holds; one that is not tracked has none to offer. -/
def read (s : Store) (x : Var) : Option Int32 :=
  if h : x.tracked = true then s ⟨x, h⟩ else none

/-- The store in which `x` holds `w`. -/
def write (s : Store) (x : TrackedVar) (w : Int32) : Store :=
  fun y => if y = x then some w else s y

/-- How a procedure may be called: exactly its tracked parameters hold a word. -/
def Initial (g : FlowGraph) (s : Store) : Prop :=
  ∀ x : TrackedVar, (s x).isSome = true ↔ x.1 ∈ g.params

theorem read_tracked (s : Store) (x : TrackedVar) : s.read x.1 = s x :=
  dif_pos x.2

theorem tracked_of_read {s : Store} {x : Var} {w : Int32} (h : s.read x = some w) :
    x.tracked = true := by
  by_cases hx : x.tracked = true
  · exact hx
  · rw [read, dif_neg hx] at h
    cases h

end Store

/-- The words that an expression may denote. Negations, calls and field reads may give any
word. -/
inductive Denotes (s : Store) : Expr → Int32 → Prop where
  | var {x : Var} {w : Int32} : s.read x = some w → Denotes s (.var x) w
  | lit (n : Int) : Denotes s (.lit n) (Int32.ofInt n)
  | binary {op : BinOp} {l r : Expr} {a b w : Int32} :
    Denotes s l a → Denotes s r b → op.onWords a b = some w → Denotes s (.binary op l r) w
  | neg (e : Expr) (w : Int32) : Denotes s (.neg e) w
  | call (method : String) (args : List Expr) (w : Int32) : Denotes s (.call method args) w
  | field (base : Var) (name : String) (w : Int32) : Denotes s (.field base name) w

/-- What a statement does to the store. -/
inductive Executes : Stmt → Store → Store → Prop where
  | assign {s : Store} {x : TrackedVar} {e : Expr} {w : Int32} :
    Denotes s e w → Executes (.assign (.var x.1) e) s (s.write x w)
  | skip {c : Stmt} (s : Store) :
    (∀ (x : TrackedVar) (e : Expr), c ≠ .assign (.var x.1) e) → Executes c s s

/-- Control arrives at a node with a store, on some path from the entry. -/
inductive Arrives (g : FlowGraph) : Node → Store → Prop where
  | enter {s : Store} : s.Initial g → Arrives g .entry s
  | follow {u v : Node} {s t : Store} :
    Arrives g u s → Executes u.code s t → (u, v) ∈ g.edges → Arrives g v t

/-! ## Assignments -/

theorem Stmt.definition?_assign (x : TrackedVar) (e : Expr) :
    (Stmt.assign (.var x.1) e).definition? = some (x.1, e) :=
  if_pos x.2

/-- A statement that assigns no tracked variable has no definition. -/
theorem Stmt.definition?_eq_none {c : Stmt}
    (h : ∀ (x : TrackedVar) (e : Expr), c ≠ .assign (.var x.1) e) : c.definition? = none := by
  cases c with
  | assign t e =>
    cases t with
    | var x =>
      have hx : ¬ x.tracked = true := fun hx => h ⟨x, hx⟩ e rfl
      exact if_neg hx
    | field base name => rfl
  | nop => rfl
  | branch c => rfl
  | jump => rfl
  | ret v => rfl
  | call m args => rfl

/-- Nothing happens at the entry. -/
theorem Executes.eq_of_entry {s t : Store} (h : Executes Node.entry.code s t) : t = s := by
  generalize hc : Node.entry.code = c at h
  cases h with
  | assign => cases hc
  | skip => rfl

end ConstantFlow

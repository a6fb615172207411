import ConstantFlow.Dataflow.Worklist
import ConstantFlow.Evaluation

/-!
# Constant propagation

Which variables hold which constants where. Parameters may hold anything; an assignment to a
tracked variable gives it the value of its right-hand side, and every other statement leaves the
knowledge alone. Variables that are not tracked never appear in a fact.
-/

namespace ConstantFlow.Propagation

/-- What holds when a procedure starts: its tracked parameters may hold anything. -/
def boundary (g : FlowGraph) : Fact :=
  g.params.foldl (fun f p => if p.tracked then (f.update p .nac).1 else f) .empty

/-- Gives `x` the value that `e` has under `known`. The change is told from the value that `x`
has in `f`. -/
def rebind (f : Fact) (x : Var) (e : Expr) (known : Fact) : Fact × Bool :=
  let value := e.eval known
  (((f.erase x).update x value).1, f.get x ≠ value)

/-- The fact that leaves a statement: the one that arrives, laid over the one that left before,
with the assigned variable bound anew. -/
def transfer (s : Stmt) (input output : Fact) : Fact × Bool :=
  let (out, changed) := output.overwrite input
  match s.definition? with
  | some (x, e) =>
    let (out, rebound) := rebind out x e input
    (out, rebound || changed)
  | none => (out, changed)

/-- The transfer where one fact both arrives and leaves: the assigned variable is forgotten
before the right-hand side is evaluated. -/
def transferInPlace (s : Stmt) (f : Fact) : Fact × Bool :=
  match s.definition? with
  | some (x, e) => rebind f x e (f.erase x)
  | none => (f, false)

/-- Constant propagation as an analysis. -/
def analysis : Analysis Fact where
  boundary := boundary
  initial := .empty
  join := Fact.join
  transfer := fun n => transfer n.code

/-- The run of constant propagation on a graph. -/
def run (g : FlowGraph) (bound : Int) : Except SolveError (Worklist.Run Fact) :=
  Worklist.solveWithin analysis g bound

/-- The facts of every node of a graph, within a bound on visits. -/
def solve (g : FlowGraph) (bound : Int) : Except SolveError (FactTable Fact) := do
  (← run g bound).outcome

end ConstantFlow.Propagation

import ConstantFlow.Dataflow.Analysis
import ConstantFlow.FlowGraph.Order

/-!
# Solving by a worklist

A solver keeps two facts for each node, one that arrives and one that leaves, a queue of nodes to
be looked at, and the set of nodes that are queued. A visit takes a node from the queue and from the
set, joins what leaves the predecessors into what arrives, applies the transfer of the node, and
queues the successors if that reports a change. Only the set is asked whether a node is queued
already, and the entry is never queued. The number of visits is bounded, since an analysis need not
settle.
-/

namespace ConstantFlow

/-- The facts of one node. -/
structure NodeFacts (F : Type) where
  input : F
  output : F
deriving Repr, DecidableEq

/-- The facts of every node, in the order of the graph. -/
abbrev FactTable (F : Type) := List (Node × NodeFacts F)

/-- Why an analysis gives no result. -/
inductive SolveError where
  | boundNotPositive
  | notConverged (bound pending : Nat)
  | unknownNode (n : Node)
deriving Repr, DecidableEq

/-- The wording of a solver error. -/
def SolveError.message : SolveError → String
  | .boundNotPositive => "max_iterations must be positive"
  | .notConverged bound pending =>
    "Dataflow analysis did not converge in " ++ toString bound ++ " iterations ("
      ++ toString pending ++ " node(s) still pending)"
  | .unknownNode n => "no such node: " ++ n.text

namespace Worklist

variable {F : Type}

/-- What a node looked like at one visit. -/
structure Visit (F : Type) where
  node : Node
  /-- The fact that arrived, with all predecessors joined in. -/
  input : F
  /-- The fact that left before the visit. -/
  before : F
  /-- The fact that leaves after it. -/
  output : F
  changed : Bool
  /-- The successors that the visit put into the queue. -/
  queued : List Node
deriving Repr

/-- The solver between two visits. -/
structure State (F : Type) where
  table : FactTable F
  queue : List Node
  /-- The nodes that are known to be queued, as a set. -/
  queued : List Node
  /-- The visits made so far, the last one first. -/
  history : List (Visit F)

/-! ## Look-ups -/

/-- The facts of a node. -/
def factsAt (table : FactTable F) (n : Node) : Except SolveError (NodeFacts F) :=
  match table.lookup n with
  | some facts => .ok facts
  | none => .error (.unknownNode n)

def succsAt (g : FlowGraph) (n : Node) : Except SolveError (List Node) :=
  match g.succs? n with
  | some succs => .ok succs
  | none => .error (.unknownNode n)

def predsAt (g : FlowGraph) (n : Node) : Except SolveError (List Node) :=
  match g.preds? n with
  | some preds => .ok preds
  | none => .error (.unknownNode n)

/-- The table with new facts for `n`. -/
def setFacts (table : FactTable F) (n : Node) (facts : NodeFacts F) : FactTable F :=
  table.map fun row => if row.1 = n then (row.1, facts) else row

/-! ## Visits -/

/-- Joins what leaves the nodes `preds` into `input`, one after the other. -/
def gather (a : Analysis F) (table : FactTable F) (input : F) : List Node → Except SolveError F
  | [] => .ok input
  | p :: ps => do
    let facts ← factsAt table p
    gather a table (a.join input facts.output) ps

/-- Takes a node out of the set of queued nodes. -/
def discard (queued : List Node) (n : Node) : List Node :=
  queued.filter (· ≠ n)

/-- Those of the nodes that are put into the queue: neither in the set of queued nodes nor the
entry. Each one is added to the set before the next is looked for in it. -/
def newcomers (queued : List Node) : List Node → List Node
  | [] => []
  | n :: ns =>
    if n ∈ queued ∨ n = .entry then newcomers queued ns
    else n :: newcomers (queued ++ [n]) ns

/-- Visits `n`, the first node of the queue, where `rest` is the queue behind it. -/
def visit (a : Analysis F) (g : FlowGraph) (s : State F) (n : Node) (rest : List Node) :
    Except SolveError (State F) := do
  let waiting := discard s.queued n
  let facts ← factsAt s.table n
  let preds ← predsAt g n
  let input ← gather a s.table facts.input preds
  let (output, changed) := a.transfer n input facts.output
  let queued ← if changed then newcomers waiting <$> succsAt g n else pure []
  return {
    table := setFacts s.table n { input, output }
    queue := rest ++ queued
    queued := waiting ++ queued
    history := { node := n, input, before := facts.output, output, changed, queued } :: s.history }

/-- How a sequence of visits ends. -/
inductive Ending where
  /-- The queue is empty. -/
  | settled
  /-- Nodes are queued, and no visit is left. -/
  | exhausted
  /-- A look-up failed. -/
  | failed (e : SolveError)
deriving Repr, DecidableEq

/-- Visits nodes until the queue is empty or the given number of visits has been made. -/
def drain (a : Analysis F) (g : FlowGraph) : Nat → State F → State F × Ending
  | 0, s => (s, if s.queue.isEmpty then .settled else .exhausted)
  | left + 1, s =>
    match s.queue with
    | [] => (s, .settled)
    | n :: rest =>
      match visit a g s n rest with
      | .ok next => drain a g left next
      | .error e => (s, .failed e)

/-- The state before the first visit: all nodes but the entry are queued in reverse postorder. -/
def start (a : Analysis F) (g : FlowGraph) : State F where
  table := g.nodes.map fun n =>
    (n, { input := a.initial, output := if n = .entry then a.boundary g else a.initial })
  queue := g.reversePostorder.filter (· ≠ .entry)
  queued := g.reversePostorder.filter (· ≠ .entry)
  history := []

/-- The visits of a solver, the first one first, and what came of them. -/
structure Run (F : Type) where
  visits : List (Visit F)
  outcome : Except SolveError (FactTable F)

/-- Solves an analysis on a graph with at most `bound` visits. -/
def solve (a : Analysis F) (g : FlowGraph) (bound : Nat) : Run F :=
  let (s, ending) := drain a g bound (start a g)
  { visits := s.history.reverse
    outcome :=
      match ending with
      | .settled => .ok s.table
      | .exhausted => .error (.notConverged bound s.queue.length)
      | .failed e => .error e }

/-- Solves with a bound that is checked first. -/
def solveWithin (a : Analysis F) (g : FlowGraph) (bound : Int) : Except SolveError (Run F) :=
  if bound ≤ 0 then .error .boundNotPositive else .ok (solve a g bound.toNat)

end Worklist

/-- The bound on visits where none is given. -/
def defaultBound : Nat := 10000

end ConstantFlow

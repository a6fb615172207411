import ConstantFlow.Statement

/-!
# Flow graphs

The statements of a procedure and the flow of control between them. Every graph has an entry and
an exit, which stand for no statement. Nodes and edges keep the order in which they were first
added, and one list of edges gives both the successors and the predecessors of a node.
-/

namespace ConstantFlow

/-- A point of a procedure. Statements with the same text are told apart by `id`; `index` is the
position that reports show. -/
inductive Node where
  | entry
  | exit
  | stmt (id : Nat) (index : Int) (code : Stmt)
deriving DecidableEq, Repr, Inhabited

namespace Node

/-- What is executed at a node: nothing at the entry and at the exit. -/
def code : Node → Stmt
  | .entry | .exit => .nop
  | .stmt _ _ s => s

def index : Node → Int
  | .entry | .exit => -1
  | .stmt _ i _ => i

def text (n : Node) : String :=
  n.code.text

/-- Whether the text of a node can be written. -/
def writable (n : Node) : Bool :=
  n.code.writable

end Node

/-- The flow of control through one procedure. -/
structure FlowGraph where
  name : String
  params : List Var
  nodes : List Node
  edges : List (Node × Node)
deriving DecidableEq, Repr, Inhabited

namespace FlowGraph

/-- The graph with no statement and no edge. -/
def empty (name : String) (params : List Var) : FlowGraph where
  name := name
  params := params
  nodes := [.entry, .exit]
  edges := []

/-- Adds a node, unless it is there. -/
def addNode (g : FlowGraph) (n : Node) : FlowGraph :=
  if n ∈ g.nodes then g else { g with nodes := g.nodes ++ [n] }

/-- Adds an edge with both of its ends, unless it is there. -/
def addEdge (g : FlowGraph) (u v : Node) : FlowGraph :=
  let h := (g.addNode u).addNode v
  if (u, v) ∈ h.edges then h else { h with edges := h.edges ++ [(u, v)] }

/-- Where control may go from `u`. -/
def succs (g : FlowGraph) (u : Node) : List Node :=
  g.edges.filterMap fun e => if e.1 = u then some e.2 else none

/-- Where control may come from to `v`. -/
def preds (g : FlowGraph) (v : Node) : List Node :=
  g.edges.filterMap fun e => if e.2 = v then some e.1 else none

theorem mem_succs_iff {g : FlowGraph} {u v : Node} : v ∈ g.succs u ↔ (u, v) ∈ g.edges := by
  simp only [succs, List.mem_filterMap]
  constructor
  · rintro ⟨⟨a, b⟩, he, h⟩
    by_cases ha : a = u <;> simp_all
  · intro h
    exact ⟨(u, v), h, by simp⟩

theorem mem_preds_iff {g : FlowGraph} {u v : Node} : u ∈ g.preds v ↔ (u, v) ∈ g.edges := by
  simp only [preds, List.mem_filterMap]
  constructor
  · rintro ⟨⟨a, b⟩, he, h⟩
    by_cases hb : b = v <;> simp_all
  · intro h
    exact ⟨(u, v), h, by simp⟩

/-- The successors of a node of the graph. -/
def succs? (g : FlowGraph) (u : Node) : Option (List Node) :=
  if u ∈ g.nodes then some (g.succs u) else none

/-- The predecessors of a node of the graph. -/
def preds? (g : FlowGraph) (v : Node) : Option (List Node) :=
  if v ∈ g.nodes then some (g.preds v) else none

/-- The number of nodes. -/
def size (g : FlowGraph) : Nat :=
  g.nodes.length

/-- The name of the procedure with the numbers of nodes and edges. -/
def text (g : FlowGraph) : String :=
  "CFG(" ++ g.name ++ ": " ++ toString g.size ++ " nodes, " ++ toString g.edges.length ++ " edges)"

end FlowGraph

end ConstantFlow

import ConstantFlow.Entries
import ConstantFlow.FlowGraph.Basic

/-!
# Adjacency tables

A graph in three containers: its nodes in order, and for each node the list of those that follow it
and the list of those that it follows. An addition goes to each container on its own, and what is
there already is looked for among the successors only.
-/

namespace ConstantFlow

/-- The nodes of a graph, and the neighbours of each of them. -/
structure Adjacency where
  nodes : List Node
  succs : List (Node × List Node)
  preds : List (Node × List Node)
deriving DecidableEq, Repr

namespace Adjacency

/-- The successors of a node that is there. -/
def succs? (t : Adjacency) (n : Node) : Option (List Node) :=
  t.succs.lookup n

/-- The predecessors of a node that is there. -/
def preds? (t : Adjacency) (n : Node) : Option (List Node) :=
  t.preds.lookup n

/-- Whether a node is there: it has a list of successors. -/
def contains (t : Adjacency) (n : Node) : Bool :=
  (t.succs? n).isSome

/-- Adds a node without neighbours, unless it is there. -/
def addNode (t : Adjacency) (n : Node) : Adjacency :=
  if t.contains n then t
  else
    { nodes := t.nodes ++ [n]
      succs := Entries.put n [] t.succs
      preds := Entries.put n [] t.preds }

/-- Adds an edge with both of its ends, unless it is listed among the successors. It has no result
if a list to which it would be added is missing. -/
def addEdge (t : Adjacency) (u v : Node) : Option Adjacency := do
  let ends := (t.addNode u).addNode v
  let following ← ends.succs? u
  if v ∈ following then return ends
  let preceding ← ends.preds? v
  return { ends with
    succs := Entries.put u (following ++ [v]) ends.succs
    preds := Entries.put v (preceding ++ [u]) ends.preds }

/-- The tables with entry and exit and no edge. -/
def empty : Adjacency :=
  (addNode { nodes := [], succs := [], preds := [] } .entry).addNode .exit

end Adjacency

end ConstantFlow

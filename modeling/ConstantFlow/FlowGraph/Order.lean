import ConstantFlow.FlowGraph.Basic

/-!
# Reverse postorder

The order in which a forward analysis visits the nodes first: every node before its successors,
as far as cycles allow. It is the order in which a depth-first search from the entry leaves the
nodes, reversed; nodes that the search does not reach follow in the order of the graph.
-/

namespace ConstantFlow.FlowGraph

/-- What a depth-first search knows. -/
structure Search where
  /-- The nodes entered so far. -/
  seen : List Node
  /-- The nodes left so far, the last one first. -/
  finished : List Node

/-- Searches from `n`, which has been entered, and leaves it. Each level of the search enters a
new node, so a depth of the number of nodes is never used up. -/
def explore (g : FlowGraph) : Nat → Node → Search → Search
  | 0, _, s => s
  | depth + 1, n, s =>
    let t := (g.succs n).foldl
      (fun t v =>
        if v ∈ t.seen then t
        else explore g depth v { t with seen := v :: t.seen })
      s
    { t with finished := n :: t.finished }

/-- The nodes in reverse postorder of a search from the entry, then the others. -/
def reversePostorder (g : FlowGraph) : List Node :=
  let s := g.explore g.size .entry { seen := [.entry], finished := [] }
  s.finished ++ g.nodes.filter (· ∉ s.seen)

end ConstantFlow.FlowGraph

import ConstantFlow.FlowGraph.Basic

/-!
# Forward analyses

A forward analysis says what holds when a procedure starts, how the knowledge of several paths is
joined, and what a node does to it. Facts may be of any type.
-/

namespace ConstantFlow

/-- A forward dataflow analysis with facts of type `F`. -/
structure Analysis (F : Type) where
  /-- The fact that leaves the entry. -/
  boundary : FlowGraph → F
  /-- The fact that every other point starts with. -/
  initial : F
  /-- `join target source` is the target with the source merged into it. -/
  join : F → F → F
  /-- `transfer n input output` is the fact that leaves `n`, made from the one that arrives and
  the one that left before, and whether the nodes that follow have to be looked at again. -/
  transfer : Node → F → F → F × Bool

end ConstantFlow

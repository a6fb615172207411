import ConstantFlow.Proofs.FlowGraph.Cycle
import ConstantFlow.Proofs.FlowGraph.DepthFirst

/-!
# Reverse postorder without cycles

On a graph without cycles no successor of a node leads back to it, so a depth-first search leaves a
node after all of its successors. The nodes in the reverse order in which the search leaves them are
therefore in topological order, and where every node can be reached from the entry this is the whole
reverse postorder.

Main results:

* `Descending.topological`: without cycles the order in which nodes are left is topological
* `topological_reversePostorder`: and so is reverse postorder, if every node can be reached
-/

namespace ConstantFlow.FlowGraph

/-- In an acyclic graph no edge leads back to where its source can be reached from. -/
theorem Acyclic.not_mem_edges {g : FlowGraph} (h : g.Acyclic) {u v : Node} (hr : g.Reaches u v) :
    (v, u) ∉ g.edges :=
  fun he => h.irrefl u (Relation.TransGen.tail' hr he)

/-! ## Topological order -/

/-- Each node of the list has all of its successors further down. -/
def Topological (g : FlowGraph) : List Node → Prop
  | [] => True
  | u :: us => (∀ v, (u, v) ∈ g.edges → v ∈ us) ∧ Topological g us

/-- A descending list of an acyclic graph is in topological order. -/
theorem Descending.topological {g : FlowGraph} {l : List Node} (h : g.Descending l)
    (hacyclic : g.Acyclic) : g.Topological l := by
  induction l with
  | nil => exact trivial
  | cons u l ih =>
    refine ⟨fun v he => (h.1 v he).resolve_right fun hr => ?_, ih h.2⟩
    exact hacyclic.not_mem_edges hr he

/-- A list in topological order is closed under going along edges. -/
theorem Topological.mem_of_edge {g : FlowGraph} {l : List Node} (h : g.Topological l) {u v : Node}
    (hu : u ∈ l) (he : (u, v) ∈ g.edges) : v ∈ l := by
  induction l with
  | nil => cases hu
  | cons w l ih =>
    rcases List.mem_cons.mp hu with rfl | hu
    · exact List.mem_cons_of_mem _ (h.1 v he)
    · exact List.mem_cons_of_mem _ (ih h.2 hu)

/-- In a list in topological order all predecessors of a node stand before it. -/
theorem Topological.mem_left {g : FlowGraph} {l r : List Node} {n p : Node}
    (h : g.Topological (l ++ n :: r)) (hnodup : (l ++ n :: r).Nodup) (hp : p ∈ l ++ n :: r)
    (he : (p, n) ∈ g.edges) : p ∈ l := by
  induction l with
  | nil =>
    -- behind `n` nothing leads to it, since it is not listed again
    have hn : n ∉ r := (List.nodup_cons.mp hnodup).1
    rcases List.mem_cons.mp hp with rfl | hp
    · exact absurd (h.1 p he) hn
    · exact absurd (h.2.mem_of_edge hp he) hn
  | cons u l ih =>
    rcases List.mem_cons.mp hp with rfl | hp
    · exact List.mem_cons_self
    · exact List.mem_cons_of_mem _ (ih h.2 (List.nodup_cons.mp hnodup).2 hp)

/-- A node that no edge leads to can be left out. -/
theorem Topological.filter_ne {g : FlowGraph} {l : List Node} (h : g.Topological l) {n : Node}
    (hn : ∀ u, (u, n) ∉ g.edges) : g.Topological (l.filter (· ≠ n)) := by
  induction l with
  | nil => exact trivial
  | cons u l ih =>
    rw [List.filter_cons]
    split
    · refine ⟨fun v he => ?_, ih h.2⟩
      have hne : v ≠ n := fun hv => hn u (hv ▸ he)
      exact List.mem_filter.mpr ⟨h.1 v he, by simpa using hne⟩
    · exact ih h.2

/-- Without cycles, and with every node in reach of the entry, reverse postorder is a topological
order. -/
theorem topological_reversePostorder {g : FlowGraph} (hg : g.WellFormed) (hacyclic : g.Acyclic)
    (hreach : ∀ n ∈ g.nodes, g.Reaches .entry n) : g.Topological g.reversePostorder := by
  have hnone : g.nodes.filter (· ∉ g.searched.seen) = [] := by
    rw [List.filter_eq_nil_iff]
    intro n hn
    simpa using (mem_seen_iff_reaches hg).mpr (hreach n hn)
  rw [reversePostorder_eq, hnone, List.append_nil]
  exact (orders_searched hg).ordered.descending.topological hacyclic

end ConstantFlow.FlowGraph

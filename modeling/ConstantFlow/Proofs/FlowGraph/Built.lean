import ConstantFlow.FlowGraph.Basic
import Mathlib.Data.List.Nodup
import Mathlib.Data.List.Perm.Subperm

/-!
# Graphs made by adding nodes and edges

A built graph comes from the graph of entry and exit by adding nodes and edges in any order, with
repetitions, loops and edges into the entry allowed. Such graphs are well formed: they hold the
entry, no node twice, and both ends of every edge.

Main results:

* `WellFormed.addEdge`: one addition keeps a graph well formed
* `Built.wellFormed`: so graphs that are made by additions are well formed
-/

namespace ConstantFlow.FlowGraph

/-- The graphs that can be made. -/
inductive Built : FlowGraph → Prop where
  | empty (name : String) (params : List Var) : Built (empty name params)
  | addNode {g : FlowGraph} (n : Node) : Built g → Built (g.addNode n)
  | addEdge {g : FlowGraph} (u v : Node) : Built g → Built (g.addEdge u v)

theorem Built.foldl_addEdge {g : FlowGraph} (hg : g.Built) (es : List (Node × Node)) :
    (es.foldl (fun g e => g.addEdge e.1 e.2) g).Built := by
  induction es generalizing g with
  | nil => exact hg
  | cons e es ih => exact ih (.addEdge e.1 e.2 hg)

/-- What an algorithm on graphs may rely on. -/
structure WellFormed (g : FlowGraph) : Prop where
  entry_mem : .entry ∈ g.nodes
  nodup_nodes : g.nodes.Nodup
  source_mem : ∀ {u v : Node}, (u, v) ∈ g.edges → u ∈ g.nodes
  target_mem : ∀ {u v : Node}, (u, v) ∈ g.edges → v ∈ g.nodes

theorem WellFormed.pred_mem {g : FlowGraph} (h : g.WellFormed) {p n : Node} (hp : p ∈ g.preds n) :
    p ∈ g.nodes :=
  h.source_mem (mem_preds_iff.mp hp)

/-! ## What adding does to nodes and edges -/

theorem mem_nodes_addNode {g : FlowGraph} {n m : Node} :
    m ∈ (g.addNode n).nodes ↔ m ∈ g.nodes ∨ m = n := by
  simp only [addNode]
  split
  case isTrue h =>
    constructor
    · exact Or.inl
    · rintro (hm | rfl)
      · exact hm
      · exact h
  case isFalse => simp

theorem edges_addNode (g : FlowGraph) (n : Node) : (g.addNode n).edges = g.edges := by
  simp only [addNode]
  split <;> rfl

theorem nodes_addEdge (g : FlowGraph) (u v : Node) :
    (g.addEdge u v).nodes = ((g.addNode u).addNode v).nodes := by
  simp only [addEdge]
  split <;> rfl

theorem mem_edges_addEdge {g : FlowGraph} {u v : Node} {e : Node × Node} :
    e ∈ (g.addEdge u v).edges ↔ e ∈ g.edges ∨ e = (u, v) := by
  have hedges : ((g.addNode u).addNode v).edges = g.edges := by
    rw [edges_addNode, edges_addNode]
  simp only [addEdge, hedges]
  split
  case isTrue h =>
    rw [hedges]
    constructor
    · exact Or.inl
    · rintro (he | rfl)
      · exact he
      · exact h
  case isFalse => simp

/-! ## Built graphs are well formed -/

theorem WellFormed.addNode {g : FlowGraph} (h : g.WellFormed) (n : Node) :
    (g.addNode n).WellFormed where
  entry_mem := mem_nodes_addNode.mpr (Or.inl h.entry_mem)
  nodup_nodes := by
    simp only [FlowGraph.addNode]
    split
    case isTrue => exact h.nodup_nodes
    case isFalse hn => exact h.nodup_nodes.append (List.nodup_singleton n) (by simpa using hn)
  source_mem := fun he => mem_nodes_addNode.mpr (Or.inl (h.source_mem (edges_addNode g n ▸ he)))
  target_mem := fun he => mem_nodes_addNode.mpr (Or.inl (h.target_mem (edges_addNode g n ▸ he)))

theorem WellFormed.addEdge {g : FlowGraph} (h : g.WellFormed) (u v : Node) :
    (g.addEdge u v).WellFormed := by
  have hends := (h.addNode u).addNode v
  constructor
  case entry_mem =>
    rw [nodes_addEdge]
    exact hends.entry_mem
  case nodup_nodes =>
    rw [nodes_addEdge]
    exact hends.nodup_nodes
  case source_mem =>
    intro a b he
    rw [nodes_addEdge, mem_nodes_addNode, mem_nodes_addNode]
    rcases mem_edges_addEdge.mp he with he | he
    · exact Or.inl (Or.inl (h.source_mem he))
    · exact Or.inl (Or.inr (congrArg Prod.fst he))
  case target_mem =>
    intro a b he
    rw [nodes_addEdge, mem_nodes_addNode, mem_nodes_addNode]
    rcases mem_edges_addEdge.mp he with he | he
    · exact Or.inl (Or.inl (h.target_mem he))
    · exact Or.inr (congrArg Prod.snd he)

theorem Built.wellFormed {g : FlowGraph} (h : g.Built) : g.WellFormed := by
  induction h with
  | empty name params =>
    exact ⟨by simp [FlowGraph.empty], by simp [FlowGraph.empty], nofun, nofun⟩
  | addNode n _ ih => exact ih.addNode n
  | addEdge u v _ ih => exact ih.addEdge u v

theorem Built.exit_mem {g : FlowGraph} (h : g.Built) : .exit ∈ g.nodes := by
  induction h with
  | empty name params => simp [FlowGraph.empty]
  | addNode n _ ih => exact mem_nodes_addNode.mpr (Or.inl ih)
  | addEdge u v _ ih =>
    rw [nodes_addEdge]
    exact mem_nodes_addNode.mpr (Or.inl (mem_nodes_addNode.mpr (Or.inl ih)))

/-- A built graph has at least its entry and its exit. -/
theorem Built.one_lt_size {g : FlowGraph} (h : g.Built) : 1 < g.size := by
  have hnodup : [Node.entry, Node.exit].Nodup := by decide
  have hsub : [Node.entry, Node.exit] ⊆ g.nodes := by
    simpa using ⟨h.wellFormed.entry_mem, h.exit_mem⟩
  exact (hnodup.subperm hsub).length_le

end ConstantFlow.FlowGraph

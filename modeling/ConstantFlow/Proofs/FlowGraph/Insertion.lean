import ConstantFlow.Proofs.FlowGraph.Edges

/-!
# The history of a graph

A graph is determined by the additions that made it: its nodes are the nodes that they name, and
the neighbours of a node are those that they connect it with, in the order in which each was first
named. Adding again what is there changes nothing, and nothing that is there is ever moved or taken
away.

Main results:

* `nodes_build`: the nodes in terms of the additions; likewise `succs_build` and `preds_build`
* `mem_succs_build`: an edge is there exactly if it has been added
* `build_isPrefix`: what is added later comes behind what is there
-/

namespace ConstantFlow.FlowGraph

/-- What is done to a graph to make it larger. -/
inductive Addition where
  | node (n : Node)
  | edge (u v : Node)
deriving DecidableEq, Repr

namespace Addition

/-- The nodes that an addition names. -/
def nodes : Addition → List Node
  | .node n => [n]
  | .edge u v => [u, v]

def edge? : Addition → Option (Node × Node)
  | .node _ => none
  | .edge u v => some (u, v)

/-- The successor that an addition gives to `u`. -/
def succ? (u : Node) (a : Addition) : Option Node :=
  a.edge?.bind fun e => if e.1 = u then some e.2 else none

/-- The predecessor that an addition gives to `v`. -/
def pred? (v : Node) (a : Addition) : Option Node :=
  a.edge?.bind fun e => if e.2 = v then some e.1 else none

theorem succ?_eq_some_iff {a : Addition} {u v : Node} : a.succ? u = some v ↔ a = .edge u v := by
  cases a with
  | node n => simp [succ?, edge?]
  | edge a b => simp [succ?, edge?]

end Addition

def add (g : FlowGraph) : Addition → FlowGraph
  | .node n => g.addNode n
  | .edge u v => g.addEdge u v

/-- The graph that a list of additions makes, from the graph of entry and exit. -/
def build (name : String) (params : List Var) (calls : List Addition) : FlowGraph :=
  calls.foldl add (empty name params)

theorem Built.add {g : FlowGraph} (hg : g.Built) (a : Addition) : (g.add a).Built := by
  cases a with
  | node n => exact hg.addNode n
  | edge u v => exact hg.addEdge u v

section Build

variable (name : String) (params : List Var) (calls : List Addition)

theorem build_concat (a : Addition) :
    build name params (calls ++ [a]) = (build name params calls).add a := by
  rw [build, List.foldl_append]
  rfl

theorem built_build : (build name params calls).Built := by
  induction calls using List.reverseRecOn with
  | nil => exact .empty name params
  | append_singleton calls a ih =>
    rw [build_concat]
    exact ih.add a

end Build

/-! ## What is named first -/

/-- Repeats can be dropped before or after a choice of elements that takes different elements to
different ones. -/
theorem filterMap_eraseDups {α β : Type} [BEq α] [LawfulBEq α] [BEq β] [LawfulBEq β]
    {f : α → Option β} (hf : ∀ a b c, f a = some c → f b = some c → a = b) (xs : List α) :
    xs.eraseDups.filterMap f = (xs.filterMap f).eraseDups := by
  induction xs using List.reverseRecOn with
  | nil => rfl
  | append_singleton xs x ih =>
    rw [eraseDups_concat, List.filterMap_append]
    cases hx : f x with
    | none =>
      have hskip : [x].filterMap f = [] := by simp [hx]
      rw [hskip, List.append_nil, ← ih]
      split
      · rfl
      · rw [List.filterMap_append, hskip, List.append_nil]
    | some c =>
      have htake : [x].filterMap f = [c] := by simp [hx]
      have hmem : c ∈ xs.filterMap f ↔ x ∈ xs := by
        rw [List.mem_filterMap]
        constructor
        · rintro ⟨a, ha, hac⟩
          rwa [← hf a x c hac hx]
        · intro hxs
          exact ⟨x, hxs, hx⟩
      rw [htake, eraseDups_concat]
      by_cases hxs : x ∈ xs
      · rw [if_pos hxs, if_pos (hmem.mpr hxs), ih]
      · rw [if_neg hxs, if_neg (mt hmem.mp hxs), List.filterMap_append, htake, ih]

/-- What comes later does not disturb the order in which elements were first listed. -/
theorem eraseDups_isPrefix {α : Type} [BEq α] [LawfulBEq α] (xs ys : List α) :
    xs.eraseDups <+: (xs ++ ys).eraseDups := by
  rw [List.eraseDups_append]
  exact List.prefix_append _ _

theorem nodes_addNode {g : FlowGraph} {ns : List Node} (h : g.nodes = ns.eraseDups) (n : Node) :
    (g.addNode n).nodes = (ns ++ [n]).eraseDups := by
  rw [eraseDups_concat, addNode, h]
  simp only [List.mem_eraseDups]
  split
  · exact h
  · rfl

theorem nodes_add {g : FlowGraph} {ns : List Node} (h : g.nodes = ns.eraseDups) (a : Addition) :
    (g.add a).nodes = (ns ++ a.nodes).eraseDups := by
  cases a with
  | node n => exact nodes_addNode h n
  | edge u v =>
    rw [add, nodes_addEdge, nodes_addNode (nodes_addNode h u) v, List.append_assoc]
    rfl

theorem edges_add {g : FlowGraph} {es : List (Node × Node)} (h : g.edges = es.eraseDups)
    (a : Addition) : (g.add a).edges = (es ++ a.edge?.toList).eraseDups := by
  cases a with
  | node n =>
    rw [add, edges_addNode, h, Addition.edge?, Option.toList_none, List.append_nil]
  | edge u v =>
    rw [add, edges_addEdge, Addition.edge?, Option.toList_some, eraseDups_concat, h]
    simp only [List.mem_eraseDups]

section Build

variable (name : String) (params : List Var) (calls : List Addition)

/-- The nodes are those that have been named, behind entry and exit. -/
theorem nodes_build : (build name params calls).nodes =
    ([Node.entry, .exit] ++ calls.flatMap Addition.nodes).eraseDups := by
  induction calls using List.reverseRecOn with
  | nil => rfl
  | append_singleton calls a ih =>
    rw [build_concat, nodes_add ih, List.flatMap_append, List.flatMap_singleton, List.append_assoc]

theorem edges_build :
    (build name params calls).edges = (calls.filterMap Addition.edge?).eraseDups := by
  induction calls using List.reverseRecOn with
  | nil => rfl
  | append_singleton calls a ih =>
    rw [build_concat, edges_add ih, List.filterMap_append]
    cases a <;> rfl

/-- What is read off the edges is read off the additions, without repeats, if different edges are
read differently. -/
theorem filterMap_edges_build {f : Node × Node → Option Node}
    (hf : ∀ d e n, f d = some n → f e = some n → d = e) :
    (build name params calls).edges.filterMap f =
      (calls.filterMap fun a => a.edge?.bind f).eraseDups := by
  rw [edges_build, filterMap_eraseDups hf, List.filterMap_filterMap]

/-- The successors of a node are those that it has been given. -/
theorem succs_build (u : Node) :
    (build name params calls).succs u = (calls.filterMap (Addition.succ? u)).eraseDups := by
  refine filterMap_edges_build name params calls ?_
  rintro ⟨a, b⟩ ⟨c, d⟩ n h h'
  simp only [Option.ite_none_right_eq_some, Option.some.injEq] at h h'
  rw [h.1, h.2, h'.1, h'.2]

/-- The predecessors of a node are those that it has been given. -/
theorem preds_build (v : Node) :
    (build name params calls).preds v = (calls.filterMap (Addition.pred? v)).eraseDups := by
  refine filterMap_edges_build name params calls ?_
  rintro ⟨a, b⟩ ⟨c, d⟩ n h h'
  simp only [Option.ite_none_right_eq_some, Option.some.injEq] at h h'
  rw [h.1, h.2, h'.1, h'.2]

theorem mem_succs_build {u v : Node} :
    v ∈ (build name params calls).succs u ↔ .edge u v ∈ calls := by
  rw [succs_build, List.mem_eraseDups, List.mem_filterMap]
  simp only [Addition.succ?_eq_some_iff, exists_eq_right]

theorem nodup_neighbours (n : Node) : ((build name params calls).succs n).Nodup ∧
    ((build name params calls).preds n).Nodup := by
  rw [succs_build, preds_build]
  exact ⟨nodup_eraseDups _, nodup_eraseDups _⟩

/-- Neighbours of a node are nodes. -/
theorem neighbour_mem {n m : Node}
    (hm : m ∈ (build name params calls).succs n ∨ m ∈ (build name params calls).preds n) :
    m ∈ (build name params calls).nodes := by
  have hg := (built_build name params calls).wellFormed
  rcases hm with hm | hm
  · exact hg.target_mem (mem_succs_iff.mp hm)
  · exact hg.pred_mem hm

/-- More additions leave nodes and edges where they are. -/
theorem build_isPrefix (more : List Addition) :
    (build name params calls).nodes <+: (build name params (calls ++ more)).nodes ∧
      ∀ n, (build name params calls).succs n <+: (build name params (calls ++ more)).succs n ∧
        (build name params calls).preds n <+: (build name params (calls ++ more)).preds n := by
  refine ⟨?_, fun n => ⟨?_, ?_⟩⟩
  · rw [nodes_build, nodes_build, List.flatMap_append, ← List.append_assoc]
    exact eraseDups_isPrefix _ _
  · rw [succs_build, succs_build, List.filterMap_append]
    exact eraseDups_isPrefix _ _
  · rw [preds_build, preds_build, List.filterMap_append]
    exact eraseDups_isPrefix _ _

end Build

end ConstantFlow.FlowGraph

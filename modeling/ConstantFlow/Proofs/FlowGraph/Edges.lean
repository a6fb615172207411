import ConstantFlow.Proofs.FlowGraph.Built
import Mathlib.Data.List.Induction

/-!
# Edges added source by source

A list of edges gives the successors of a node in the order in which they were added, and a repeated
edge adds nothing. Where all edges of one source are added before those of the next, the successors
of a source are what was listed for it without the repeats, and the predecessors of a node are the
sources that list it, in their order.

Main results:

* `edges_foldl_addEdge`: the edges of a new source come behind the others, without the repeats
* `succs_eq_eraseDups`: its successors are the nodes listed for it
* `preds_eq_filter`: the predecessors of a node are the sources that list it, in their order
-/

namespace ConstantFlow.FlowGraph

/-! ## Repeats -/

/-- An element is dropped at the end of a list exactly if it has occurred before. -/
theorem eraseDups_concat {α : Type} [BEq α] [LawfulBEq α] (xs : List α) (x : α) :
    (xs ++ [x]).eraseDups = if x ∈ xs then xs.eraseDups else xs.eraseDups ++ [x] := by
  rw [List.eraseDups_append]
  split
  case isTrue hx =>
    have hnone : [x].removeAll xs = [] := by simp [List.removeAll, hx]
    rw [hnone, List.eraseDups_nil, List.append_nil]
  case isFalse hx =>
    have hkept : [x].removeAll xs = [x] := by simp [List.removeAll, hx]
    rw [hkept]
    rfl

theorem nodup_eraseDups {α : Type} [BEq α] [LawfulBEq α] (xs : List α) :
    xs.eraseDups.Nodup := by
  induction xs using List.reverseRecOn with
  | nil => exact List.nodup_nil
  | append_singleton xs x ih =>
    rw [eraseDups_concat]
    split
    · exact ih
    case isFalse hx =>
      have hnew : x ∉ xs.eraseDups := by rwa [List.mem_eraseDups]
      exact ih.append (List.nodup_singleton x) (by simpa using hnew)

/-! ## One source -/

theorem edges_addEdge (g : FlowGraph) (u v : Node) :
    (g.addEdge u v).edges = if (u, v) ∈ g.edges then g.edges else g.edges ++ [(u, v)] := by
  have hedges : ((g.addNode u).addNode v).edges = g.edges := by
    rw [edges_addNode, edges_addNode]
  simp only [addEdge, hedges]
  split
  · exact hedges
  · rfl

/-- Edges from a source that had none are added behind the others, without repeats. -/
theorem edges_foldl_addEdge {g : FlowGraph} {u : Node} (hu : ∀ v, (u, v) ∉ g.edges)
    (vs : List Node) :
    (vs.foldl (fun g v => g.addEdge u v) g).edges = g.edges ++ vs.eraseDups.map (u, ·) := by
  -- from the back: whether the last edge is new depends on all the others
  induction vs using List.reverseRecOn with
  | nil => simp
  | append_singleton vs v ih =>
    have hmem : (u, v) ∈ g.edges ++ vs.eraseDups.map (u, ·) ↔ v ∈ vs := by
      simp [hu v, List.mem_eraseDups]
    rw [List.foldl_append, List.foldl_cons, List.foldl_nil, edges_addEdge, ih, eraseDups_concat]
    by_cases hv : v ∈ vs
    · rw [if_pos (hmem.mpr hv), if_pos hv]
    · rw [if_neg (mt hmem.mp hv), if_neg hv, List.map_append, List.append_assoc]
      rfl

theorem succs_of_source (u w : Node) (vs : List Node) :
    (vs.map (w, ·)).filterMap (fun e => if e.1 = u then some e.2 else none) =
      if w = u then vs else [] := by
  rw [List.filterMap_map]
  split
  case isTrue hw => simp [hw]
  case isFalse hw => simp [hw]

theorem preds_of_source (v w : Node) {vs : List Node} (hvs : vs.Nodup) :
    (vs.map (w, ·)).filterMap (fun e => if e.2 = v then some e.1 else none) =
      if v ∈ vs then [w] else [] := by
  induction vs with
  | nil => rfl
  | cons x vs ih =>
    rw [List.nodup_cons] at hvs
    rw [List.map_cons, List.filterMap_cons, ih hvs.2]
    by_cases hx : x = v
    · have hlast : v ∉ vs := hx ▸ hvs.1
      simp [hx, hlast]
    · simp [hx, Ne.symm hx]

/-! ## Several sources -/

/-- The edges of several sources, each of which comes with the ends of its edges, repeats
included. -/
def edgesOf (sources : List (Node × List Node)) : List (Node × Node) :=
  sources.flatMap fun s => s.2.eraseDups.map (s.1, ·)

theorem edgesOf_cons (s : Node × List Node) (sources : List (Node × List Node)) :
    edgesOf (s :: sources) = s.2.eraseDups.map (s.1, ·) ++ edgesOf sources :=
  List.flatMap_cons

/-- Nothing is listed for a node that is no source. -/
theorem ends_eq_nil {sources : List (Node × List Node)} {u : Node}
    (hu : u ∉ sources.map Prod.fst) :
    (sources.flatMap fun s => if s.1 = u then s.2.eraseDups else []) = [] := by
  rw [List.flatMap_eq_nil_iff]
  intro s hs
  have hne : s.1 ≠ u := by
    intro heq
    exact hu (heq ▸ List.mem_map_of_mem hs)
  exact if_neg hne

section Sources

variable {g : FlowGraph} {sources : List (Node × List Node)} (hedges : g.edges = edgesOf sources)

include hedges

theorem succs_eq_flatMap (u : Node) :
    g.succs u = sources.flatMap fun s => if s.1 = u then s.2.eraseDups else [] := by
  rw [succs, hedges, edgesOf, List.filterMap_flatMap]
  exact List.flatMap_congr fun s _ => succs_of_source u s.1 s.2.eraseDups

/-- Only sources have successors. -/
theorem succs_eq_nil {u : Node} (hu : u ∉ sources.map Prod.fst) : g.succs u = [] := by
  rw [succs_eq_flatMap hedges, ends_eq_nil hu]

/-- The successors of a source are the ends listed for it, without repeats. -/
theorem succs_eq_eraseDups (hnodup : (sources.map Prod.fst).Nodup) {u : Node} {vs : List Node}
    (hu : (u, vs) ∈ sources) : g.succs u = vs.eraseDups := by
  rw [succs_eq_flatMap hedges]
  obtain ⟨before, behind, rfl⟩ := List.append_of_mem hu
  rw [List.map_append, List.map_cons, List.nodup_append_comm, List.cons_append, List.nodup_cons,
    List.mem_append, not_or] at hnodup
  rw [List.flatMap_append, List.flatMap_cons, ends_eq_nil hnodup.1.2, ends_eq_nil hnodup.1.1,
    if_pos rfl, List.nil_append, List.append_nil]

theorem preds_eq_map (v : Node) :
    g.preds v = (sources.filter fun s => v ∈ s.2).map Prod.fst := by
  rw [preds, hedges, edgesOf, List.filterMap_flatMap]
  have hsource : ∀ s ∈ sources, (s.2.eraseDups.map (s.1, ·)).filterMap
      (fun e => if e.2 = v then some e.1 else none) = if v ∈ s.2 then [s.1] else [] := by
    intro s _
    rw [preds_of_source v s.1 (nodup_eraseDups s.2)]
    simp only [List.mem_eraseDups]
  rw [List.flatMap_congr hsource]
  clear hedges hsource
  induction sources with
  | nil => rfl
  | cons s sources ih =>
    rw [List.flatMap_cons, ih, List.filter_cons]
    by_cases hv : v ∈ s.2 <;> simp [hv]

/-- The predecessors of a node are the sources that it follows, in their order. -/
theorem preds_eq_filter (hnodup : (sources.map Prod.fst).Nodup) (v : Node) :
    g.preds v = (sources.map Prod.fst).filter fun u => v ∈ g.succs u := by
  rw [preds_eq_map hedges, List.filter_map]
  refine congrArg (List.map Prod.fst) (List.filter_congr fun s hs => ?_)
  rw [Function.comp_apply, succs_eq_eraseDups hedges hnodup hs]
  simp only [List.mem_eraseDups]

end Sources

end ConstantFlow.FlowGraph

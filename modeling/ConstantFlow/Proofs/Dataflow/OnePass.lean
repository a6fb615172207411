import ConstantFlow.Proofs.Dataflow.History
import ConstantFlow.Proofs.FlowGraph.Topological

/-!
# One pass over a graph without cycles

On a graph without cycles all of whose nodes can be reached from the entry, the first queue is in
topological order. The successors of a visited node all wait behind it then, so no visit puts
anything into the queue, whatever the analysis reports: the solver works its first queue off and
stops. Each node is visited after all of its predecessors, when what leaves them will not change any
more.

Main results:

* `topological_queue_start`: the first queue is in topological order
* `inOrder_of_reached`: the visits take the nodes from the front of it and put none behind
* `pred_visited_before`: a node is visited after its predecessors
* `input_of_visited`: what has arrived at a visited node is what leaves its predecessors
-/

namespace ConstantFlow.Worklist

variable {F : Type} {a : Analysis F} {g : FlowGraph} {s : State F}

/-! ## The first queue -/

theorem queue_start_perm (hg : g.WellFormed) : (start a g).queue.Perm (g.nodes.erase .entry) := by
  have hfilter : g.nodes.erase .entry = g.nodes.filter (· ≠ .entry) := by
    rw [hg.nodup_nodes.erase_eq_filter]
    refine List.filter_congr fun n _ => ?_
    by_cases hn : n = .entry <;> simp [hn]
  rw [hfilter]
  exact (FlowGraph.reversePostorder_perm hg).filter _

theorem length_queue_start (hg : g.WellFormed) : (start a g).queue.length = g.size - 1 := by
  rw [(queue_start_perm hg).length_eq, List.length_erase_of_mem hg.entry_mem]
  rfl

theorem mem_queue_start (hg : g.WellFormed) {n : Node} (hn : n ∈ g.nodes) (he : n ≠ .entry) :
    n ∈ (start a g).queue :=
  (queue_start_perm hg).mem_iff.mpr ((List.mem_erase_of_ne he).mpr hn)

/-- What the solver starts from on a graph without cycles. -/
theorem topological_queue_start (hg : g.WellFormed) (hacyclic : g.Acyclic)
    (hreach : ∀ n ∈ g.nodes, g.Reaches .entry n) : g.Topological (start a g).queue := by
  apply (FlowGraph.topological_reversePostorder hg hacyclic hreach).filter_ne
  intro u he
  exact hacyclic.not_mem_edges (hreach u (hg.source_mem he)) he

/-! ## Visits in order -/

theorem newcomers_eq_nil {queue ns : List Node} (h : ∀ n ∈ ns, n ∈ queue) :
    newcomers queue ns = [] := by
  induction ns with
  | nil => rfl
  | cons n ns ih =>
    rw [newcomers, if_pos (Or.inl (h n List.mem_cons_self))]
    exact ih fun m hm => h m (List.mem_cons_of_mem _ hm)

/-- Where all successors wait behind a node, its visit puts nothing into the queue. -/
theorem queue_next_of_topological (hs : Consistent g s) {n : Node} {rest : List Node}
    (hq : s.queue = n :: rest) (h : g.Topological (n :: rest)) :
    (next a g s n rest).queue = rest := by
  have hnone : newcomers rest (g.succs n) = [] :=
    newcomers_eq_nil fun v hv => h.1 v (FlowGraph.mem_succs_iff.mp hv)
  show rest ++ (record a g s n).queued = rest
  rw [hs.queued_record hq, hnone, ite_self, List.append_nil]

/-- The queue is in topological order, and it is what the visits have left of the first queue. -/
structure InOrder (a : Analysis F) (g : FlowGraph) (s : State F) : Prop where
  topological : g.Topological s.queue
  order : (s.history.map Visit.node).reverse ++ s.queue = (start a g).queue

theorem inOrder_of_reached (hg : g.WellFormed) (h : Reached a g s)
    (htop : g.Topological (start a g).queue) : InOrder a g s := by
  have hinv := h.invariant hg (P := InOrder a g) ⟨htop, rfl⟩ ?_
  · exact hinv.2
  · intro s n rest _ hs hq ih
    have htop : g.Topological (n :: rest) := hq ▸ ih.topological
    have hqueue : (next a g s n rest).queue = rest := queue_next_of_topological hs hq htop
    refine ⟨by rw [hqueue]; exact htop.2, ?_⟩
    rw [hqueue, ← ih.order, hq]
    show (n :: s.history.map Visit.node).reverse ++ rest = _
    rw [List.reverse_cons, List.append_assoc, List.singleton_append]

/-- No node waits that has been visited. -/
theorem InOrder.not_mem_queue (hs : InOrder a g s) (hg : g.WellFormed) {n : Node}
    (hv : s.Visited n) : n ∉ s.queue := by
  obtain ⟨v, hv, rfl⟩ := hv
  have hnodup : ((s.history.map Visit.node).reverse ++ s.queue).Nodup := by
    rw [hs.order]
    exact (Consistent.start a hg).nodup_queue
  have hvisited : v.node ∈ (s.history.map Visit.node).reverse :=
    List.mem_reverse.mpr (List.mem_map_of_mem hv)
  intro hq
  exact (List.nodup_append.mp hnodup).2.2 v.node hvisited v.node hq rfl

/-- As many nodes wait as visits are missing. -/
theorem length_queue_after (hg : g.WellFormed) (htop : g.Topological (start a g).queue) (k : Nat) :
    (after a g k).queue.length = g.size - 1 - k := by
  have hs := inOrder_of_reached hg (reached_after hg k) htop
  have hall : (after a g k).history.length + (after a g k).queue.length = g.size - 1 := by
    have hlen := congrArg List.length hs.order
    rw [length_queue_start hg] at hlen
    simpa using hlen
  obtain ⟨hle, hmade⟩ := length_history_after (a := a) hg k
  by_cases hq : (after a g k).queue = []
  · rw [hq, List.length_nil] at hall ⊢
    omega
  · have := hmade hq
    omega

theorem queue_after_eq_nil_iff (hg : g.WellFormed) (htop : g.Topological (start a g).queue)
    (k : Nat) : (after a g k).queue = [] ↔ g.size - 1 ≤ k := by
  rw [← List.length_eq_zero_iff, length_queue_after hg htop]
  omega

theorem outcome_of_topological_of_lt (hg : g.WellFormed) (htop : g.Topological (start a g).queue)
    {k : Nat} (hk : k < g.size - 1) :
    (solve a g k).outcome = .error (.notConverged k (g.size - 1 - k)) := by
  have hq : (after a g k).queue ≠ [] := by
    rw [Ne, queue_after_eq_nil_iff hg htop]
    omega
  rw [outcome_solve hg, if_neg hq, length_queue_after hg htop]

/-! ## Finished runs -/

section Finished

variable (hg : g.WellFormed) (htop : g.Topological (start a g).queue) {k : Nat}
variable (hk : g.size - 1 ≤ k)

include hg htop hk

/-- The visits of a finished run are those of its first queue. -/
theorem visits_eq_queue_start : (solve a g k).visits.map Visit.node = (start a g).queue := by
  have hs := inOrder_of_reached hg (reached_after hg k) htop
  have hq := (queue_after_eq_nil_iff hg htop k).mpr hk
  rw [← hs.order, hq, List.append_nil, visits_solve, List.map_reverse]

theorem length_visits_of_topological : (solve a g k).visits.length = g.size - 1 := by
  rw [← List.length_map (f := Visit.node), visits_eq_queue_start hg htop hk, length_queue_start hg]

theorem count_visits_of_topological {n : Node} (hn : n ∈ g.nodes) (he : n ≠ .entry) :
    ((solve a g k).visits.map Visit.node).count n = 1 := by
  rw [visits_eq_queue_start hg htop hk]
  exact List.count_eq_one_of_mem (Consistent.start a hg).nodup_queue (mem_queue_start hg hn he)

/-- A node is visited after all of its predecessors. -/
theorem pred_visited_before {earlier later : List (Visit F)} {v : Visit F}
    (hsplit : (solve a g k).visits = earlier ++ v :: later) {p : Node} (hp : p ∈ g.preds v.node)
    (he : p ≠ .entry) : ∃ u ∈ earlier, u.node = p := by
  have hedge := FlowGraph.mem_preds_iff.mp hp
  have hqueue : (start a g).queue =
      earlier.map Visit.node ++ v.node :: later.map Visit.node := by
    rw [← visits_eq_queue_start hg htop hk, hsplit, List.map_append, List.map_cons]
  have hnodup := (Consistent.start a hg).nodup_queue
  have hmem := mem_queue_start (a := a) hg (hg.pred_mem hp) he
  rw [hqueue] at htop hnodup hmem
  exact List.mem_map.mp (htop.mem_left hnodup hmem hedge)

end Finished

/-! ## What is computed -/

/-- The visit of a node changes what leaves it, and its successors still wait: what leaves the
predecessors of a visited node stays as it is. -/
theorem output_next_of_pred (hg : g.WellFormed) (h : Reached a g s)
    (htop : g.Topological (start a g).queue) {m : Node} {rest : List Node}
    (hq : s.queue = m :: rest) {n p : Node} (hv : (next a g s m rest).Visited n)
    (hp : p ∈ g.preds n) : (next a g s m rest).output a p = s.output a p := by
  have hs := h.consistent hg
  have hbehind : g.Topological (m :: rest) := hq ▸ (inOrder_of_reached hg h htop).topological
  have hnext := inOrder_of_reached hg (h.next hg hq) htop
  have hne : p ≠ m := by
    intro heq
    have hwaits : n ∈ rest := hbehind.1 n (heq ▸ FlowGraph.mem_preds_iff.mp hp)
    rw [← queue_next_of_topological (a := a) hs hq hbehind] at hwaits
    exact hnext.not_mem_queue hg hv hwaits
  rw [output_next a hs (hs.head_mem hq), if_neg hne]

/-- What has arrived at a visited node is what leaves its predecessors, and nothing else: they were
all visited before it, and not again since. -/
theorem input_of_visited (hg : g.WellFormed) (h : Reached a g s)
    (htop : g.Topological (start a g).queue) {n : Node} (hv : s.Visited n) :
    s.input a n = (g.preds n).foldl (fun f p => a.join f (s.output a p)) a.initial := by
  have hinv := h.invariant hg (P := fun s => ∀ n, s.Visited n →
    s.input a n = (g.preds n).foldl (fun f p => a.join f (s.output a p)) a.initial) ?_ ?_
  · exact hinv.2 n hv
  · rintro n ⟨v, hv, _⟩
    cases hv
  · intro s m rest hr hs hq ih n hv
    have hfold :
        (g.preds n).foldl (fun f p => a.join f ((next a g s m rest).output a p)) a.initial =
          (g.preds n).foldl (fun f p => a.join f (s.output a p)) a.initial :=
      List.foldl_ext _ _ _ fun f p hp => by rw [output_next_of_pred hg hr htop hq hv hp]
    rw [hfold, input_next a hs (hs.head_mem hq)]
    by_cases hn : n = m
    · -- `m` is visited for the first time, so nothing had arrived there
      have hunvisited : ¬ s.Visited m := fun hv =>
        (inOrder_of_reached hg hr htop).not_mem_queue hg hv (hq ▸ List.mem_cons_self)
      rw [if_pos hn, hn, arrival, (hr.facts_of_unvisited hg hunvisited).1]
    · rw [if_neg hn]
      exact ih n ((visited_next.mp hv).resolve_left hn)

end ConstantFlow.Worklist

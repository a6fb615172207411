import ConstantFlow.Proofs.Evaluation
import ConstantFlow.Proofs.Loading.Graph
import ConstantFlow.Proofs.Propagation.Stability

/-!
# What arrives against what leaves the predecessors

What arrives at a node is gathered over all of its visits and never taken back. In the end it is no
more than what leaves the predecessors then, merged, as long as no predecessor has let out more
before than it does in the end. For that its statement has to divide, and the divisor has to turn
out to be zero: then what was let out before is left over at the successors.

Main results:

* `get_output_le_of_settled`: what a node lets out in the end is no less than before, unless its
  divisor is zero
* `get_input_eq_merge`: then what arrives is what leaves the predecessors, merged
* `input_eq_merge_unless_zero_divisor`: this for every returned table
* `leftover_arrives_without_source`: a procedure where something is left over
-/

namespace ConstantFlow.Propagation

open Worklist

variable {g : FlowGraph} {s : State Fact}

/-! ## Merging -/

/-- What leaves the predecessors of a node, merged into a fact that knows nothing. -/
def merge (g : FlowGraph) (output : Node → Fact) (n : Node) : Fact :=
  (g.preds n).foldl (fun f p => f.join (output p)) .empty

theorem merge_eq_foldl (g : FlowGraph) (output : Node → Fact) (n : Node) :
    merge g output n = ((g.preds n).map output).foldl Fact.join .empty := by
  rw [merge, List.foldl_map]

theorem lawful_merge (g : FlowGraph) (output : Node → Fact) (n : Node) :
    (merge g output n).Lawful := by
  rw [merge_eq_foldl]
  exact Fact.lawful_foldl_join Fact.lawful_empty _

/-- A merge is the least upper bound of what leaves the predecessors. -/
theorem get_merge_le_iff {output : Node → Fact} (ho : ∀ p, (output p).Lawful) {n : Node} {x : Var}
    {v : Value} : (merge g output n).get x ≤ v ↔ ∀ p ∈ g.preds n, (output p).get x ≤ v := by
  have hlawful : ∀ k ∈ (g.preds n).map output, k.Lawful := by
    intro k hk
    rcases List.mem_map.mp hk with ⟨p, _, rfl⟩
    exact ho p
  rw [merge_eq_foldl, Fact.get_foldl_join_le_iff hlawful, List.forall_mem_map]
  exact and_iff_right (Value.undefined_le v)

theorem output_le_merge {output : Node → Fact} (ho : ∀ p, (output p).Lawful) {p n : Node}
    (hp : p ∈ g.preds n) : output p ≤ merge g output n :=
  fun _ => (get_merge_le_iff ho).mp le_rfl p hp

/-- The merge that the solver would make of a table. -/
theorem gather_eq_merge (hg : g.WellFormed) (hs : Consistent g s) (n : Node) :
    gather analysis s.table .empty (g.preds n) = .ok (merge g (s.output analysis) n) :=
  gather_eq analysis hs (g.preds n)
    (fun _ hp => hg.pred_mem hp) .empty

/-! ## What was let out before -/

/-- At each variable the effect of a statement is monotone up to a fact under which no divisor is
known to be zero. -/
theorem get_effect_le {c : Stmt} {f f' : Fact} (hle : f ≤ f') {x : Var}
    (h : ∀ e, c.definition? = some (x, e) → e.dividesByZero f' = false) :
    (effect c f).get x ≤ (effect c f').get x :=
  get_effect_rel (hle x) fun e he => Expr.eval_le_eval hle (h e he)

variable {k K : Nat}

/-- Before the end of a run no more leaves a node than in the end, except where it divides by a
divisor that is zero in the end. -/
theorem get_output_le_of_settled (hg : g.WellFormed) (hk : k ≤ K)
    (hq : (after analysis g K).queue = []) {p : Node} (hp : p ∈ g.nodes) {x : Var}
    (hzero : ∀ e, p.code.definition? = some (x, e) →
      e.dividesByZero ((after analysis g K).input analysis p) = false) :
    ((after analysis g k).output analysis p).get x ≤
      ((after analysis g K).output analysis p).get x := by
  have hr := reached_after (a := analysis) hg k
  have hend := reached_after (a := analysis) hg K
  by_cases hentry : p = .entry
  · -- the boundary leaves the entry at all times
    rw [hentry, (invariant_of_reached hg hr).entry_output,
      (invariant_of_reached hg hend).entry_output]
  by_cases hv : (after analysis g k).Visited p
  · have hv' : (after analysis g K).Visited p :=
      (hend.queued_or_visited hg hp hentry).resolve_left (by simp [hq])
    rw [(invariant_of_reached hg hr).effect_of_visited p hv,
      (invariant_of_reached hg hend).effect_of_visited p hv']
    exact get_effect_le (monotone_input hg p hk) hzero
  · rw [(hr.facts_of_unvisited hg hv).2, if_neg hentry]
    exact Value.undefined_le _

/-- So what arrives at a node is at all times covered by what leaves the predecessors in the end. -/
theorem get_input_le_merge (hg : g.WellFormed) (hk : k ≤ K)
    (hq : (after analysis g K).queue = []) {n : Node} {x : Var}
    (hzero : ∀ p ∈ g.preds n, ∀ e, p.code.definition? = some (x, e) →
      e.dividesByZero ((after analysis g K).input analysis p) = false) :
    ((after analysis g k).input analysis n).get x ≤
      (merge g ((after analysis g K).output analysis) n).get x := by
  have hlawful := (invariant_of_reached hg (reached_after hg K)).lawful_output
  induction k with
  | zero =>
    have hstart : (after analysis g 0).input analysis n = .empty := input_start analysis g n
    rw [hstart]
    exact Value.undefined_le _
  | succ k ih =>
    have hbefore := ih (Nat.le_of_succ_le hk)
    rcases after_succ_cases (a := analysis) hg k with ⟨_, hnext⟩ | ⟨m, rest, hqueue, hnext⟩
    · rw [hnext]
      exact hbefore
    · have hr := reached_after (a := analysis) hg k
      have hs := hr.consistent hg
      rw [hnext, input_next analysis hs (hs.head_mem hqueue)]
      by_cases hn : n = m
      · rw [if_pos hn, ← hn, get_arrival_le_iff (invariant_of_reached hg hr).lawful_output]
        refine ⟨hbefore, fun p hp => ?_⟩
        calc ((after analysis g k).output analysis p).get x
          _ ≤ ((after analysis g K).output analysis p).get x :=
            get_output_le_of_settled hg (Nat.le_of_succ_le hk) hq (hg.pred_mem hp) (hzero p hp)
          _ ≤ (merge g ((after analysis g K).output analysis) n).get x :=
            output_le_merge hlawful hp x
      · rw [if_neg hn]
        exact hbefore

/-- Once the queue is empty, all that leaves the predecessors of a node has arrived there. -/
theorem merge_le_input (hg : g.WellFormed) (hr : Reached analysis g s) (hq : s.queue = [])
    {n : Node} (he : n ≠ .entry) : merge g (s.output analysis) n ≤ s.input analysis n := by
  intro x
  rw [get_merge_le_iff (invariant_of_reached hg hr).lawful_output]
  intro p hp
  exact (solution_of_settled hg hr hq).passed_on p n (FlowGraph.mem_preds_iff.mp hp) he x

/-- Once the queue is empty, what arrives at a node about a variable is the merge of what leaves its
predecessors, unless one of them assigns the variable and divides by zero. -/
theorem get_input_eq_merge (hg : g.WellFormed) (hq : (after analysis g K).queue = []) {n : Node}
    (he : n ≠ .entry) {x : Var}
    (hzero : ∀ p ∈ g.preds n, ∀ e, p.code.definition? = some (x, e) →
      e.dividesByZero ((after analysis g K).input analysis p) = false) :
    ((after analysis g K).input analysis n).get x =
      (merge g ((after analysis g K).output analysis) n).get x :=
  le_antisymm (get_input_le_merge hg le_rfl hq hzero)
    (merge_le_input hg (reached_after hg K) hq he x)

/-! ## Finished runs -/

/-- In a returned table, all that leaves the predecessors of a node, merged, has arrived there. What
has arrived about a variable is no more than that, unless a predecessor assigns the variable and in
the end divides by a divisor that is known to be zero. -/
theorem input_eq_merge_unless_zero_divisor {g : FlowGraph} (hg : g.Built) {bound : Int}
    {table : FactTable Fact} (h : solve g bound = .ok table) {n : Node} (hn : n ∈ g.nodes)
    (he : n ≠ .entry) :
    ∃ facts merged, factsAt table n = .ok facts ∧
      gather analysis table .empty (g.preds n) = .ok merged ∧
      (∀ x, merged.get x ≤ facts.input.get x) ∧
      ∀ x, facts.input.get x = merged.get x ∨
        ∃ p ∈ g.preds n, ∃ before e, factsAt table p = .ok before ∧
          p.code.definition? = some (x, e) ∧ e.dividesByZero before.input = true := by
  have hwf := hg.wellFormed
  obtain ⟨_, hq, rfl⟩ := (solve_eq_ok_iff hwf).mp h
  have hr := reached_after (a := analysis) hwf bound.toNat
  have hs := hr.consistent hwf
  refine ⟨_, _, hs.factsAt_eq analysis hn, gather_eq_merge hwf hs n,
    merge_le_input hwf hr hq he, ?_⟩
  intro x
  by_cases hzero : ∀ p ∈ g.preds n, ∀ e, p.code.definition? = some (x, e) →
      e.dividesByZero ((after analysis g bound.toNat).input analysis p) = false
  · exact Or.inl (get_input_eq_merge hwf hq he hzero)
  · push Not at hzero
    obtain ⟨p, hp, e, hdef, hdiv⟩ := hzero
    have hfacts := hs.factsAt_eq analysis (hwf.pred_mem hp)
    exact Or.inr ⟨p, hp, _, e, hfacts, hdef, by simpa using hdiv⟩

/-! The loop that forgets, as a procedure: what `y = p % z` let out about `y` while nothing was
known of `z` is left over behind it when `z` is known to be zero. -/

namespace Leftover

open Forgetful

def last : Node := .stmt 2 2 (.ret (some (.var y)))

def graph : FlowGraph :=
  [(.entry, use), (use, clear), (clear, use), (clear, last), (last, .exit)].foldl
    (fun g e => g.addEdge e.1 e.2) (.empty "f" [p])

/-- The procedure as it is written. -/
def form : Form :=
  .list [.symbol "procedure", .symbol "f",
    .list [.symbol "params", .list [.symbol "p", .symbol "int"]],
    .list [.symbol "vars", .list [.symbol "y", .symbol "int"], .list [.symbol "z", .symbol "int"]],
    .list [.symbol "node", .integer 0,
      .list [.symbol "assign", .symbol "y", .list [.symbol "%", .symbol "p", .symbol "z"]],
      .integer 1],
    .list [.symbol "node", .integer 1, .list [.symbol "assign", .symbol "z", .integer 0],
      .integer 0, .integer 2],
    .list [.symbol "node", .integer 2, .list [.symbol "return", .symbol "y"]]]

theorem built : graph.Built :=
  (FlowGraph.Built.empty "f" [p]).foldl_addEdge _

theorem returns : ∃ table, solve graph 20 = .ok table :=
  exists_of_isOk (by decide)

theorem preds_clear : graph.preds clear = [use] := by decide

/-- What has arrived behind `y = p % z` in the end, and what leaves it then. -/
theorem arrived_and_merged :
    (do
      let table ← solve graph 20
      let facts ← factsAt table clear
      let merged ← gather analysis table .empty (graph.preds clear)
      return (facts.input, merged)) =
      .ok (⟨[(p, .nac), (y, .nac), (z, .const 0)]⟩, ⟨[(p, .nac), (z, .const 0)]⟩) := by
  decide

end Leftover

open Forgetful Leftover in
theorem input_eq_merge_unless_zero_divisor_leftover :
    ∃ table facts merged, solve Leftover.graph 20 = .ok table ∧
      factsAt table clear = .ok facts ∧
      gather analysis table .empty (Leftover.graph.preds clear) = .ok merged ∧
      facts.input.get z = merged.get z := by
  obtain ⟨table, hrun⟩ := Leftover.returns
  obtain ⟨facts, merged, hfacts, hmerged, _, hcases⟩ :=
    input_eq_merge_unless_zero_divisor Leftover.built hrun (n := clear) (by decide) (by decide)
  refine ⟨table, facts, merged, hrun, hfacts, hmerged, (hcases z).resolve_right ?_⟩
  -- the only predecessor assigns `y`
  rintro ⟨p, hp, before, e, _, hdef, _⟩
  rw [Leftover.preds_clear, List.mem_singleton] at hp
  rw [hp] at hdef
  simp [use, Node.code, Stmt.definition?, y, z] at hdef

open Forgetful Leftover in
theorem leftover_arrives_without_source :
    Loading.procedure form = .ok Leftover.graph ∧
      ∃ table facts merged, solve Leftover.graph 20 = .ok table ∧
        factsAt table clear = .ok facts ∧
        gather analysis table .empty (Leftover.graph.preds clear) = .ok merged ∧
        ¬ facts.input.get y ≤ merged.get y ∧ facts.input.same merged = false := by
  refine ⟨rfl, ?_⟩
  obtain ⟨table, hrun, h⟩ := Loading.bind_eq_ok_iff.mp arrived_and_merged
  obtain ⟨facts, hfacts, h⟩ := Loading.bind_eq_ok_iff.mp h
  obtain ⟨merged, hmerged, h⟩ := Loading.bind_eq_ok_iff.mp h
  obtain ⟨hin, rfl⟩ := Prod.mk.inj (Except.ok.inj h)
  refine ⟨table, facts, _, hrun, hfacts, hmerged, ?_, ?_⟩
  · rw [hin]
    decide
  · rw [hin]
    decide

end ConstantFlow.Propagation

import ConstantFlow.Loading.Procedure
import ConstantFlow.Proofs.FlowGraph.Cycle
import ConstantFlow.Proofs.Propagation.Stability
import Mathlib.Logic.Hydra

/-!
# When constant propagation ends

The facts of a run come to rest, but the queue need not: a restless statement reports a change at
every visit, so a cycle of restless statements keeps one of its nodes waiting for ever. It takes
such a cycle. Once the facts are at rest only restless nodes put others into the queue, and where
no cycle is restless all round, that comes to an end.

Main results:

* `not_restlessCycle_of_settled`: where the queue is empty there is no restless cycle
* `StableFrom.exists_settled`: without one, the queue gets empty
* `solve_returns_unless_restless_cycle`: which graphs are solved within some bound
* `queue_empties_iff_no_restless_cycle`: the same in terms of the facts that the run comes to rest
  with
* `relapsing_returns_within_no_bound`: a procedure that is solved within no bound
-/

namespace ConstantFlow.Propagation

open Worklist

variable {g : FlowGraph} {s : State Fact}

/-- Somewhere in the graph all statements round a cycle are restless, given what arrives. -/
def RestlessCycle (g : FlowGraph) (input : Node → Fact) : Prop :=
  ∃ c, g.IsCycle c ∧ ∀ n ∈ c, Restless n.code (input n)

theorem Restless.ne_entry {n : Node} {f : Fact} (h : Restless n.code f) : n ≠ .entry := by
  rintro rfl
  rcases h with ⟨x, e, hd, _⟩
  cases hd

/-! ## A restless cycle keeps the queue from running empty -/

/-- In a history that has come upon one of the nodes, the last visit of any of them. -/
theorem exists_last_visit {c : List Node} {n : Node} (hn : n ∈ c) (hv : s.Visited n) :
    ∃ later v earlier, s.history = later ++ v :: earlier ∧ v.node ∈ c ∧
      ∀ w ∈ later, w.node ∉ c := by
  rcases hv with ⟨v, hv, rfl⟩
  have hsome : (s.history.find? fun w => decide (w.node ∈ c)).isSome = true :=
    List.find?_isSome.mpr ⟨v, hv, by simpa using hn⟩
  rcases Option.isSome_iff_exists.mp hsome with ⟨w, hw⟩
  rcases List.find?_eq_some_iff_append.mp hw with ⟨hin, later, earlier, hsplit, hlater⟩
  refine ⟨later, w, earlier, hsplit, by simpa using hin, fun u hu => ?_⟩
  simpa using hlater u hu

theorem not_restlessCycle_of_settled (hg : g.WellFormed) (h : Reached analysis g s)
    (hq : s.queue = []) : ¬ RestlessCycle g (s.input analysis) := by
  rintro ⟨c, hc, hrestless⟩
  have hnone : ∀ n, n ∉ s.queue := by simp [hq]
  -- of all visits on the cycle, look at the last one
  have hlast : ∃ later v earlier, s.history = later ++ v :: earlier ∧ v.node ∈ c ∧
      ∀ w ∈ later, w.node ∉ c := by
    cases hcases : c with
    | nil =>
      rw [hcases] at hc
      cases hc
    | cons n ns =>
      have hn : n ∈ c := hcases ▸ List.mem_cons_self
      rcases hc.exists_succ hn with ⟨m, _, he⟩
      have hwv := h.queued_or_visited hg (hg.source_mem he) (hrestless n hn).ne_entry
      exact hcases ▸ exists_last_visit hn (hwv.resolve_left (hnone n))
  rcases hlast with ⟨later, v, earlier, hsplit, hin, hlater⟩
  have hinput := (h.facts_of_last hg hsplit fun w hw hwv => hlater w hw (hwv ▸ hin)).1
  have hchanged : v.changed = true := by
    have hlawful := (invariant_of_reached hg h).lawful_input v.node
    have hreport := (hrestless v.node hin).changed hlawful v.before
    have htransfer := h.transfer_eq hg (v := v) (by simp [hsplit])
    rw [hinput] at hreport
    exact (congrArg Prod.snd htransfer).symm.trans hreport
  -- it reported a change, so the next node on the cycle has been visited later, or still waits
  rcases hc.exists_succ hin with ⟨m, hm, he⟩
  have hentry := (hrestless m hm).ne_entry
  rcases h.notified hg hsplit hchanged (FlowGraph.mem_succs_iff.mpr he) hentry with
    hw | ⟨w, hw, hwm⟩
  · exact hnone m hw
  · exact hlater w hw (hwm ▸ hm)

/-! ## Without one the queue runs empty -/

/-- Once stable, a visit takes a node from the queue, and puts in successors only if the node is
restless. -/
theorem StableFrom.cutExpand_queue {K k : Nat} (hK : StableFrom g K) (hg : g.WellFormed)
    (hk : K ≤ k) {n : Node} {rest : List Node} (hq : (after analysis g k).queue = n :: rest) :
    Relation.CutExpand
      (fun v u => Restless u.code ((after analysis g K).input analysis u) ∧ (u, v) ∈ g.edges)
      ((after analysis g (k + 1)).queue : Multiset Node) (after analysis g k).queue := by
  -- the queue loses `n` and gains what its visit puts in
  refine ⟨(record analysis g (after analysis g k) n).queued, n, ?_, ?_⟩
  · intro m hm
    have hqueued := mem_queued (Multiset.mem_coe.mp hm)
    exact ⟨(hK.changed_iff hg hk hq).mp hqueued.1, FlowGraph.mem_succs_iff.mp hqueued.2.1⟩
  · rw [after_succ hg hq, hq]
    show ((rest ++ _ : List Node) : Multiset Node) + {n} = _
    rw [← Multiset.coe_add, ← Multiset.cons_coe, ← Multiset.singleton_add, add_comm, add_assoc]

theorem StableFrom.exists_settled {K : Nat} (hK : StableFrom g K) (hg : g.WellFormed)
    (h : ¬ RestlessCycle g ((after analysis g K).input analysis)) :
    ∃ k, (after analysis g k).queue = [] := by
  by_contra hnever
  rw [not_exists] at hnever
  -- the queues from `K` on would descend for ever
  have hwf := (FlowGraph.wellFounded_of_no_cycle hg h).cutExpand
  rcases WellFounded.not_rel_apply_succ (h := ⟨hwf⟩)
    fun j => ((after analysis g (K + j)).queue : Multiset Node) with ⟨j, hj⟩
  rcases List.exists_cons_of_ne_nil (hnever (K + j)) with ⟨n, rest, hq⟩
  exact hj (hK.cutExpand_queue hg (Nat.le_add_right K j) hq)

/-- What arrives in a run that is stable is what arrives at its end, if it has one. -/
theorem StableFrom.input_of_settled {K k : Nat} (hK : StableFrom g K) (hg : g.WellFormed)
    (hq : (after analysis g k).queue = []) (n : Node) :
    (after analysis g k).input analysis n = (after analysis g K).input analysis n := by
  rcases le_total K k with hk | hk
  · exact hK.input_eq k hk n
  · rw [after_of_settled hg hq hk]

/-- The queue runs empty exactly if no cycle is restless all round. -/
theorem StableFrom.settles_iff {K : Nat} (hK : StableFrom g K) (hg : g.WellFormed) :
    (∃ k, (after analysis g k).queue = []) ↔
      ¬ RestlessCycle g ((after analysis g K).input analysis) := by
  constructor
  · rintro ⟨k, hq⟩
    rw [← funext (hK.input_of_settled hg hq)]
    exact not_restlessCycle_of_settled hg (reached_after hg k) hq
  · exact hK.exists_settled hg

/-! ## Bounds -/

/-- A run that ends returns a table within every bound that is large enough. -/
theorem exists_bound_of_settled (hg : g.WellFormed) {k : Nat}
    (hq : (after analysis g k).queue = []) :
    ∃ M : Int, ∀ bound, M ≤ bound → ∃ table, solve g bound = .ok table := by
  refine ⟨k + 1, fun bound hb => ⟨(after analysis g k).table, ?_⟩⟩
  have hend := after_of_settled (a := analysis) hg hq (j := bound.toNat) (by omega)
  rw [solve_of_pos hg (by omega), hend, if_pos hq]

/-- A run that does not end reaches every bound with nodes still waiting. -/
theorem solve_eq_notConverged (hg : g.WellFormed) (hnever : ∀ k, (after analysis g k).queue ≠ [])
    {bound : Int} (hb : 0 < bound) :
    ∃ pending, 0 < pending ∧ solve g bound = .error (.notConverged bound.toNat pending) := by
  refine ⟨_, List.length_pos_of_ne_nil (hnever bound.toNat), ?_⟩
  rw [solve_of_pos hg hb, if_neg (hnever bound.toNat)]

/-- In every run the facts come to rest. A table is returned within every large enough bound if no
cycle is restless all round by then, and within no bound at all if one is. -/
theorem solve_returns_unless_restless_cycle {g : FlowGraph} (hg : g.Built) :
    ∃ (input output : Node → Fact) (K : Nat),
      (∀ k, K ≤ k → ∀ n, (after analysis g k).input analysis n = input n ∧
        ((after analysis g k).output analysis n).get = (output n).get) ∧
      (¬ RestlessCycle g input →
        ∃ M : Int, ∀ bound, M ≤ bound → ∃ table, solve g bound = .ok table) ∧
      (RestlessCycle g input → ∀ bound, 0 < bound →
        ∃ pending, 0 < pending ∧ solve g bound = .error (.notConverged bound.toNat pending)) := by
  have hwf := hg.wellFormed
  rcases exists_stableFrom hwf with ⟨K, hK⟩
  have hsettles := hK.settles_iff hwf
  refine ⟨(after analysis g K).input analysis, (after analysis g K).output analysis, K, ?_, ?_, ?_⟩
  · intro k hk n
    exact ⟨hK.input_eq k hk n, hK.output_eq hwf hk n⟩
  · intro hno
    rcases hsettles.mpr hno with ⟨k, hq⟩
    exact exists_bound_of_settled hwf hq
  · intro hcycle bound hb
    have hnever : ∀ k, (after analysis g k).queue ≠ [] := fun k hq =>
      hsettles.mp ⟨k, hq⟩ hcycle
    exact solve_eq_notConverged hwf hnever hb

/-! A node that assigns a constant to a parameter again and again. What arrives at it and what
leaves it stay as they are after its first visit, and it reports a change at every one. -/

namespace Relapsing

def x : Var := { name := "x", type := .primitive .int }

def again : Node := .stmt 0 0 (.assign (.var x) (.lit 5))
def last : Node := .stmt 1 1 (.ret (some (.var x)))

def graph : FlowGraph :=
  [(.entry, again), (again, again), (again, last), (last, .exit)].foldl
    (fun g e => g.addEdge e.1 e.2) (.empty "f" [x])

/-- The procedure as it is written. -/
def form : Form :=
  .list [.symbol "procedure", .symbol "f",
    .list [.symbol "params", .list [.symbol "x", .symbol "int"]],
    .list [.symbol "node", .integer 0, .list [.symbol "assign", .symbol "x", .integer 5],
      .integer 0, .integer 1],
    .list [.symbol "node", .integer 1, .list [.symbol "return", .symbol "x"]]]

theorem built : graph.Built :=
  (FlowGraph.Built.empty "f" [x]).foldl_addEdge _

theorem isCycle_again : graph.IsCycle [again] := by
  have hedge : (again, again) ∈ graph.edges := by decide
  simpa [FlowGraph.IsCycle] using hedge

theorem never_settled (k : Nat) : (after analysis graph k).queue ≠ [] := by
  intro hq
  have hr := reached_after (a := analysis) built.wellFormed k
  have hsol := solution_of_settled built.wellFormed hr hq
  -- whatever the caller passes arrives from the entry
  have harrives : ((after analysis graph k).input analysis again).get x = .nac := by
    have hle := hsol.passed_on .entry again (by decide) (by decide) x
    rw [hsol.entry_output, get_boundary, if_pos (by decide)] at hle
    exact le_antisymm (Value.le_nac _) hle
  refine not_restlessCycle_of_settled built.wellFormed hr hq ⟨[again], isCycle_again, ?_⟩
  intro n hn
  rw [List.mem_singleton.mp hn]
  exact ⟨x, .lit 5, rfl, by rw [harrives]; nofun, by rw [harrives]; nofun⟩

end Relapsing

open Relapsing in
theorem solve_returns_unless_restless_cycle_relapsing :
    ∃ pending, 0 < pending ∧ solve graph 1000 = .error (.notConverged 1000 pending) := by
  rcases solve_returns_unless_restless_cycle built with ⟨input, _, _, _, hreturns, hnever⟩
  by_cases hcycle : RestlessCycle graph input
  · exact hnever hcycle 1000 (by decide)
  · rcases hreturns hcycle with ⟨M, hM⟩
    rcases hM M le_rfl with ⟨table, hrun⟩
    exact absurd ((solve_eq_ok_iff built.wellFormed).mp hrun).2.1 (never_settled _)

open Relapsing in
theorem relapsing_returns_within_no_bound :
    Loading.procedure form = .ok graph ∧ ¬ ∃ bound table, solve graph bound = .ok table := by
  refine ⟨rfl, ?_⟩
  rintro ⟨bound, table, hrun⟩
  exact never_settled _ ((solve_eq_ok_iff built.wellFormed).mp hrun).2.1

/-! ## The exact condition -/

theorem not_restlessCycle_of_idle_node {input : Node → Fact}
    (h : ∀ c, g.IsCycle c → ∃ n ∈ c, n.code.definition? = none) : ¬ RestlessCycle g input := by
  rintro ⟨c, hc, hrestless⟩
  rcases h c hc with ⟨n, hn, hnone⟩
  rcases hrestless n hn with ⟨x, e, hd, _⟩
  rw [hnone] at hd
  cases hd

/-- In a run without a bound what arrives changes only finitely often, and it ends up as what a
returned table says. The queue runs empty exactly if by then no cycle is restless all round. In
particular every large enough bound returns a table if each cycle has a node that assigns no
tracked variable. -/
theorem queue_empties_iff_no_restless_cycle {g : FlowGraph} (hg : g.Built) :
    ∃ final : Node → Fact,
      (∃ K, ∀ k, K ≤ k → ∀ n, (after analysis g k).input analysis n = final n) ∧
      (∀ bound table, solve g bound = .ok table →
        ∀ n ∈ g.nodes, ∃ facts, factsAt table n = .ok facts ∧ facts.input = final n) ∧
      ((∃ k, (after analysis g k).queue = []) ↔
        ¬ ∃ c, g.IsCycle c ∧ ∀ n ∈ c, Restless n.code (final n)) ∧
      ((∀ c, g.IsCycle c → ∃ n ∈ c, n.code.definition? = none) →
        ∃ M : Int, ∀ bound, M ≤ bound → ∃ table, solve g bound = .ok table) := by
  have hwf := hg.wellFormed
  rcases exists_stableFrom hwf with ⟨K, hK⟩
  have hsettles := hK.settles_iff hwf
  refine ⟨(after analysis g K).input analysis, ⟨K, hK.input_eq⟩, ?_, hsettles, ?_⟩
  · intro bound table h n hn
    rcases (solve_eq_ok_iff hwf).mp h with ⟨_, hq, rfl⟩
    have hs := (reached_after (a := analysis) hwf bound.toNat).consistent hwf
    exact ⟨_, hs.factsAt_eq analysis hn, hK.input_of_settled hwf hq n⟩
  · intro hidle
    rcases hsettles.mpr (not_restlessCycle_of_idle_node hidle) with ⟨k, hq⟩
    exact exists_bound_of_settled hwf hq

open Forgetful in
theorem queue_empties_iff_no_restless_cycle_forgetful :
    ∃ final : Node → Fact, graph.IsCycle [use, clear] ∧ Restless use.code (final use) ∧
      (∃ k, (after analysis graph k).queue = []) ∧
      ¬ ∃ c, graph.IsCycle c ∧ ∀ n ∈ c, Restless n.code (final n) := by
  rcases returns with ⟨table, hrun⟩
  rcases queue_empties_iff_no_restless_cycle built with ⟨final, _, hreturned, hiff, _⟩
  rcases hreturned 20 table hrun use (by decide) with ⟨facts, hfacts, hfinal⟩
  rw [input_use hrun hfacts] at hfinal
  have hsettled : ∃ k, (after analysis graph k).queue = [] :=
    ⟨_, ((solve_eq_ok_iff built.wellFormed).mp hrun).2.1⟩
  have hcycle : graph.IsCycle [use, clear] := by
    have hthere : (use, clear) ∈ graph.edges := by decide
    have hback : (clear, use) ∈ graph.edges := by decide
    simp [FlowGraph.IsCycle, hthere, hback]
  have hrestless : Restless use.code (final use) := by
    rw [← hfinal]
    exact ⟨y, _, rfl, by decide, by decide⟩
  exact ⟨final, hcycle, hrestless, hsettled, hiff.mp hsettled⟩

end ConstantFlow.Propagation

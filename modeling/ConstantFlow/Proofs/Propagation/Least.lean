import ConstantFlow.Proofs.Propagation.Merge
import ConstantFlow.Proofs.Propagation.Soundness

/-!
# The least solution

Where no assignment divides, effects are monotone. A run then never rises above facts that leave
room for what the flow equations ask for, whichever way it goes, so the facts that it ends with are
the least ones of that kind. They do not depend on the order in which the graph was made.

Main results:

* `Bounds.below_next`: a visit does not rise above facts that leave room
* `get_eq_of_sameAs`: runs on graphs with the same nodes and edges come to the same
* `solve_gives_least_solution`: a returned table is the least solution
-/

namespace ConstantFlow

/-- No division is met when the assignments to tracked variables are evaluated. -/
def FlowGraph.divisionFree (g : FlowGraph) : Bool :=
  g.nodes.all fun n => n.code.definition?.all fun d => d.2.divisionFree

theorem FlowGraph.divisionFree_of_definition {g : FlowGraph} (h : g.divisionFree = true) {n : Node}
    (hn : n ∈ g.nodes) {x : Var} {e : Expr} (hd : n.code.definition? = some (x, e)) :
    e.divisionFree = true := by
  have hnode := List.all_eq_true.mp h n hn
  rw [hd] at hnode
  exact hnode

/-- Two graphs have the same nodes, edges and parameters, in whatever order. -/
structure FlowGraph.SameAs (g g' : FlowGraph) : Prop where
  nodes : ∀ n, n ∈ g.nodes ↔ n ∈ g'.nodes
  edges : ∀ e, e ∈ g.edges ↔ e ∈ g'.edges
  params : ∀ x, x ∈ g.params ↔ x ∈ g'.params

theorem FlowGraph.SameAs.symm {g g' : FlowGraph} (h : g.SameAs g') : g'.SameAs g where
  nodes n := (h.nodes n).symm
  edges e := (h.edges e).symm
  params x := (h.params x).symm

theorem FlowGraph.SameAs.divisionFree {g g' : FlowGraph} (h : g.SameAs g')
    (hdiv : g.divisionFree = true) : g'.divisionFree = true := by
  unfold FlowGraph.divisionFree at hdiv ⊢
  rw [List.all_eq_true] at hdiv ⊢
  intro n hn
  exact hdiv n ((h.nodes n).mpr hn)

namespace Propagation

open Worklist

variable {g g' : FlowGraph} {s : State Fact} {input output : Node → Fact}

/-- Facts with room for all that the flow equations ask for: no less than the boundary leaves the
entry, no less arrives at a node than leaves its predecessors, and no less leaves it than the effect
of its statement. -/
structure Bounds (g : FlowGraph) (input output : Node → Fact) : Prop where
  boundary_le : boundary g ≤ output .entry
  passed_on : ∀ p n, (p, n) ∈ g.edges → n ≠ .entry → output p ≤ input n
  effect_le : ∀ n ∈ g.nodes, n ≠ .entry → effect n.code (input n) ≤ output n

theorem Solution.bounds (h : Solution g input output) : Bounds g input output where
  boundary_le := by rw [h.entry_output]
  passed_on := h.passed_on
  effect_le n hn he := fun x => by rw [h.effect_eq n hn he]

/-- The order of nodes, edges and parameters is of no account. -/
theorem Bounds.of_sameAs (h : Bounds g input output) (hsame : g.SameAs g') :
    Bounds g' input output where
  boundary_le := by
    intro x
    have hx := h.boundary_le x
    rw [get_boundary] at hx ⊢
    simpa only [hsame.params x] using hx
  passed_on p n he := h.passed_on p n ((hsame.edges (p, n)).mpr he)
  effect_le n hn := h.effect_le n ((hsame.nodes n).mpr hn)

/-! ## Runs stay below bounds -/

theorem effect_mono (hdiv : g.divisionFree = true) {n : Node} (hn : n ∈ g.nodes) {f f' : Fact}
    (hle : f ≤ f') : effect n.code f ≤ effect n.code f' := by
  intro x
  apply get_effect_le hle
  intro e he
  exact Expr.dividesByZero_of_divisionFree f' (FlowGraph.divisionFree_of_definition hdiv hn he)

/-- A visit keeps the facts below bounds. -/
theorem Bounds.below_next (h : Bounds g input output) (hg : g.WellFormed)
    (hdiv : g.divisionFree = true) (hr : Reached analysis g s) {n : Node} {rest : List Node}
    (hq : s.queue = n :: rest)
    (hbelow : ∀ m, s.input analysis m ≤ input m ∧ s.output analysis m ≤ output m) (m : Node) :
    (next analysis g s n rest).input analysis m ≤ input m ∧
      (next analysis g s n rest).output analysis m ≤ output m := by
  have hs := hr.consistent hg
  have hn := hs.head_mem hq
  have he := hs.head_ne_entry hq
  by_cases hm : m = n
  · subst hm
    -- all that is joined in lies below what may arrive
    have hin : (next analysis g s m rest).input analysis m ≤ input m := by
      rw [input_next analysis hs hn, if_pos rfl]
      intro x
      rw [get_arrival_le_iff (invariant_of_reached hg hr).lawful_output]
      refine ⟨(hbelow m).1 x, fun p hp => ?_⟩
      exact ((hbelow p).2 x).trans (h.passed_on p m (FlowGraph.mem_preds_iff.mp hp) he x)
    have heffect := (invariant_of_reached hg (hr.next hg hq)).effect_of_visited m
      (visited_next.mpr (Or.inl rfl))
    refine ⟨hin, fun x => ?_⟩
    calc ((next analysis g s m rest).output analysis m).get x
      _ = (effect m.code ((next analysis g s m rest).input analysis m)).get x := by rw [heffect]
      _ ≤ (effect m.code (input m)).get x := effect_mono hdiv hn hin x
      _ ≤ (output m).get x := h.effect_le m hn he x
  · rw [input_next analysis hs hn, output_next analysis hs hn, if_neg hm, if_neg hm]
    exact hbelow m

theorem Bounds.below_of_reached (h : Bounds g input output) (hg : g.WellFormed)
    (hdiv : g.divisionFree = true) (hr : Reached analysis g s) (n : Node) :
    s.input analysis n ≤ input n ∧ s.output analysis n ≤ output n := by
  have hinv := hr.invariant hg
    (P := fun s => ∀ n, s.input analysis n ≤ input n ∧ s.output analysis n ≤ output n) ?_ ?_
  · exact hinv.2 n
  · intro n
    rw [input_start, output_start analysis hg]
    refine ⟨fun x => Value.undefined_le _, ?_⟩
    split
    case isTrue he =>
      rw [he]
      exact h.boundary_le
    case isFalse => exact fun x => Value.undefined_le _
  · intro s m rest hr _ hq hbelow
    exact h.below_next hg hdiv hr hq hbelow

/-! ## Finished runs -/

/-- The facts of a finished run are bounds for any other run, so two finished runs on the same
nodes, edges and parameters do not rise above each other. -/
theorem get_eq_of_sameAs (hg : g.WellFormed) (hg' : g'.WellFormed) (hsame : g'.SameAs g)
    (hdiv : g.divisionFree = true) {s' : State Fact} (hr : Reached analysis g s)
    (hq : s.queue = []) (hr' : Reached analysis g' s') (hq' : s'.queue = []) (n : Node) :
    (s'.input analysis n).get = (s.input analysis n).get ∧
      (s'.output analysis n).get = (s.output analysis n).get := by
  have hbounds := (solution_of_settled hg hr hq).bounds.of_sameAs hsame.symm
  have hbounds' := (solution_of_settled hg' hr' hq').bounds.of_sameAs hsame
  have hle := hbounds.below_of_reached hg' (hsame.symm.divisionFree hdiv) hr' n
  have hge := hbounds'.below_of_reached hg hdiv hr n
  exact ⟨funext fun x => le_antisymm (hle.1 x) (hge.1 x),
    funext fun x => le_antisymm (hle.2 x) (hge.2 x)⟩

/-- Without divisions, the facts of a returned table are the least ones with room for what the flow
equations ask for, and what arrives at a node is exactly what leaves its predecessors, merged. A
graph with the same nodes, edges and parameters, made in another order, gets the same facts. -/
theorem solve_gives_least_solution {g : FlowGraph} (hg : g.Built) (hdiv : g.divisionFree = true)
    {bound : Int} {table : FactTable Fact} (h : solve g bound = .ok table) :
    ∃ input output : Node → Fact,
      (∀ n ∈ g.nodes, factsAt table n = .ok { input := input n, output := output n }) ∧
      (∀ n ∈ g.nodes, n ≠ .entry → (input n).same (merge g output n) = true) ∧
      Bounds g input output ∧
      (∀ input' output', Bounds g input' output' →
        ∀ n ∈ g.nodes, input n ≤ input' n ∧ output n ≤ output' n) ∧
      ∀ g' bound' table', g'.Built → g'.SameAs g → solve g' bound' = .ok table' →
        ∀ n ∈ g.nodes, ∃ facts, factsAt table' n = .ok facts ∧
          facts.input.same (input n) = true ∧ facts.output.same (output n) = true := by
  have hwf := hg.wellFormed
  obtain ⟨_, hq, rfl⟩ := (solve_eq_ok_iff hwf).mp h
  have hr := reached_after (a := analysis) hwf bound.toNat
  have hinv := invariant_of_reached hwf hr
  have hbounds := (solution_of_settled hwf hr hq).bounds
  refine ⟨_, _, fun n hn => (hr.consistent hwf).factsAt_eq analysis hn, ?_, hbounds, ?_, ?_⟩
  · intro n hn he
    rw [Fact.same_iff (hinv.lawful_input n) (lawful_merge g _ n)]
    funext x
    apply get_input_eq_merge hwf hq he
    intro p hp e hd
    apply Expr.dividesByZero_of_divisionFree
    exact FlowGraph.divisionFree_of_definition hdiv (hwf.pred_mem hp) hd
  · intro input' output' h' n _
    exact h'.below_of_reached hwf hdiv hr n
  · intro g' bound' table' hg' hsame h' n hn
    have hwf' := hg'.wellFormed
    obtain ⟨_, hq', rfl⟩ := (solve_eq_ok_iff hwf').mp h'
    have hr' := reached_after (a := analysis) hwf' bound'.toNat
    have hinv' := invariant_of_reached hwf' hr'
    refine ⟨_, (hr'.consistent hwf').factsAt_eq analysis ((hsame.nodes n).mpr hn), ?_⟩
    rw [Fact.same_iff (hinv'.lawful_input n) (hinv.lawful_input n),
      Fact.same_iff (hinv'.lawful_output n) (hinv.lawful_output n)]
    exact get_eq_of_sameAs hwf hwf' hsame hdiv hr hq hr' hq' n

/-! The loop that adds its parameter to `x`, made from its last edge to its first. -/

namespace Backwards

open Counting

def graph : FlowGraph :=
  [(test, .exit), (bump, test), (test, bump), (init, test), (.entry, init)].foldl
    (fun g e => g.addEdge e.1 e.2) (.empty "count" [p.1])

theorem built : graph.Built :=
  (FlowGraph.Built.empty "count" [p.1]).foldl_addEdge _

theorem sameAs : graph.SameAs Counting.graph where
  nodes _ := (show graph.nodes.Perm Counting.graph.nodes by decide).mem_iff
  edges _ := (show graph.edges.Perm Counting.graph.edges by decide).mem_iff
  params _ := (show graph.params.Perm Counting.graph.params by decide).mem_iff

theorem returns : ∃ table, solve graph 20 = .ok table :=
  exists_of_isOk (by decide)

end Backwards

open Counting in
theorem solve_gives_least_solution_backwards :
    Counting.graph.divisionFree = true ∧
      Backwards.graph.reversePostorder ≠ Counting.graph.reversePostorder ∧
      ∃ table table' facts facts', solve Counting.graph 20 = .ok table ∧
        solve Backwards.graph 20 = .ok table' ∧ factsAt table test = .ok facts ∧
        factsAt table' test = .ok facts' ∧ facts'.input.same facts.input = true := by
  have hdiv : Counting.graph.divisionFree = true := by decide
  obtain ⟨table, hrun⟩ := Counting.returns
  obtain ⟨table', hrun'⟩ := Backwards.returns
  obtain ⟨input, output, hfacts, _, _, _, horder⟩ :=
    solve_gives_least_solution Counting.built hdiv hrun
  have htest : test ∈ Counting.graph.nodes := by decide
  obtain ⟨facts', hfacts', hin, _⟩ :=
    horder Backwards.graph 20 table' Backwards.built Backwards.sameAs hrun' test htest
  exact ⟨hdiv, by decide, table, table', _, facts', hrun, hrun', hfacts test htest, hfacts', hin⟩

end Propagation

end ConstantFlow

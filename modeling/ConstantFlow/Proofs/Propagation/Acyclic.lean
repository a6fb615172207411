import ConstantFlow.Proofs.Dataflow.OnePass
import ConstantFlow.Proofs.Propagation.Merge

/-!
# Constant propagation without cycles

Where no path leads round, the facts at a node are determined by those of its predecessors: there is
exactly one way to let arrive at each node what leaves its predecessors, merged, and to let leave it
the effect of its statement. The solver finds it in one pass, divisions or not.

Main results:

* `MergeSolution.agree`: there is one solution at most
* `mergeSolution_of_settled`: a finished run gives one
* `acyclic_solved_in_one_pass`: it does so with one visit for each node
-/

namespace ConstantFlow.Propagation

open Worklist

variable {g : FlowGraph} {input output input' output' : Node → Fact}

/-- The flow equations with nothing to spare: what arrives at a node is what leaves its
predecessors, merged. -/
structure MergeSolution (g : FlowGraph) (input output : Node → Fact) : Prop where
  lawful_input : ∀ n, (input n).Lawful
  lawful_output : ∀ n, (output n).Lawful
  entry_input : (input .entry).get = Fact.empty.get
  entry_output : (output .entry).get = (boundary g).get
  merge_eq : ∀ n ∈ g.nodes, n ≠ .entry → (input n).get = (merge g output n).get
  effect_eq : ∀ n ∈ g.nodes, n ≠ .entry → (output n).get = (effect n.code (input n)).get

/-! ## The equations have one solution -/

theorem get_merge_congr (ho : ∀ p, (output p).Lawful) (ho' : ∀ p, (output' p).Lawful) {n : Node}
    (h : ∀ p ∈ g.preds n, (output p).get = (output' p).get) :
    (merge g output n).get = (merge g output' n).get := by
  funext x
  apply eq_of_forall_ge_iff
  intro v
  rw [get_merge_le_iff ho, get_merge_le_iff ho']
  exact forall₂_congr fun p hp => by rw [h p hp]

theorem get_effect_congr {c : Stmt} {f f' : Fact} (h : f.get = f'.get) :
    (effect c f).get = (effect c f').get := by
  funext x
  exact get_effect_rel (congrFun h x) fun e _ => Expr.eval_congr h e

/-- Without cycles, two solutions agree at every node. -/
theorem MergeSolution.agree (h : MergeSolution g input output)
    (h' : MergeSolution g input' output') (hg : g.WellFormed) (hacyclic : g.Acyclic) {n : Node}
    (hn : n ∈ g.nodes) : (input n).get = (input' n).get ∧ (output n).get = (output' n).get := by
  -- by induction along the edges that lead to `n`
  induction n using (hacyclic.wellFounded hg).induction with
  | _ n ih =>
    by_cases he : n = .entry
    · rw [he, h.entry_input, h'.entry_input, h.entry_output, h'.entry_output]
      exact ⟨rfl, rfl⟩
    · have hin : (input n).get = (input' n).get := by
        rw [h.merge_eq n hn he, h'.merge_eq n hn he]
        apply get_merge_congr h.lawful_output h'.lawful_output
        intro p hp
        exact (ih p (FlowGraph.mem_preds_iff.mp hp) (hg.pred_mem hp)).2
      refine ⟨hin, ?_⟩
      rw [h.effect_eq n hn he, h'.effect_eq n hn he, get_effect_congr hin]

/-! ## One pass finds it -/

theorem mergeSolution_of_settled {s : State Fact} (hg : g.WellFormed)
    (htop : g.Topological (start analysis g).queue) (hr : Reached analysis g s)
    (hq : s.queue = []) : MergeSolution g (s.input analysis) (s.output analysis) := by
  have hinv := invariant_of_reached hg hr
  have hsol := solution_of_settled hg hr hq
  constructor
  case lawful_input => exact hinv.lawful_input
  case lawful_output => exact hinv.lawful_output
  case entry_input => rw [hsol.entry_input]
  case entry_output => rw [hsol.entry_output]
  case merge_eq =>
    intro n hn he
    have hv := (hr.queued_or_visited hg hn he).resolve_left (by simp [hq])
    rw [input_of_visited hg hr htop hv]
    rfl
  case effect_eq => exact hsol.effect_eq

/-- A graph without cycles, all of whose nodes can be reached from the entry, is solved in one pass
by any analysis: within a bound of at least one visit for each node but the entry a table is
returned, after exactly that many visits, one of each such node and after those of its predecessors,
and a smaller bound is exceeded. Constant propagation returns the only solution of the flow
equations in which what arrives is what leaves the predecessors, merged. -/
theorem acyclic_solved_in_one_pass {g : FlowGraph} (hg : g.Built) (hacyclic : g.Acyclic)
    (hreach : ∀ n ∈ g.nodes, g.Reaches .entry n) :
    (∀ {F : Type} (a : Analysis F) (bound : Int),
      ((g.size : Int) - 1 ≤ bound → ∃ (run : Run F) (table : FactTable F),
        solveWithin a g bound = .ok run ∧ run.outcome = .ok table ∧
        run.visits.length = g.size - 1 ∧
        (∀ n ∈ g.nodes, n ≠ .entry → (run.visits.map Visit.node).count n = 1) ∧
        ∀ (earlier : List (Visit F)) (v : Visit F) (later : List (Visit F)),
          run.visits = earlier ++ v :: later →
            ∀ p ∈ g.preds v.node, p ≠ .entry → ∃ u ∈ earlier, u.node = p) ∧
      (0 < bound → bound < (g.size : Int) - 1 → ∃ run, solveWithin a g bound = .ok run ∧
        run.outcome = .error (.notConverged bound.toNat (g.size - 1 - bound.toNat)))) ∧
    ∀ bound : Int, (g.size : Int) - 1 ≤ bound → ∃ table input output, solve g bound = .ok table ∧
      (∀ n ∈ g.nodes, factsAt table n = .ok { input := input n, output := output n }) ∧
      MergeSolution g input output ∧
      ∀ input' output', MergeSolution g input' output' →
        ∀ n ∈ g.nodes, (input n).same (input' n) = true ∧ (output n).same (output' n) = true := by
  have hwf := hg.wellFormed
  have hsize := hg.one_lt_size
  refine ⟨fun {F} a bound => ⟨fun hbound => ?_, fun hpos hbound => ?_⟩, fun bound hbound => ?_⟩
  · have htop := topological_queue_start (a := a) hwf hacyclic hreach
    have hk : g.size - 1 ≤ bound.toNat := by omega
    have hq := (queue_after_eq_nil_iff hwf htop bound.toNat).mpr hk
    refine ⟨_, _, solveWithin_eq_ok_iff.mpr ⟨by omega, rfl⟩,
      (outcome_solve_eq_ok_iff hwf).mpr ⟨hq, rfl⟩, length_visits_of_topological hwf htop hk, ?_, ?_⟩
    · intro n hn he
      exact count_visits_of_topological hwf htop hk hn he
    · intro earlier v later hsplit p hp he
      exact pred_visited_before hwf htop hk hsplit hp he
  · have htop := topological_queue_start (a := a) hwf hacyclic hreach
    have hk : bound.toNat < g.size - 1 := by omega
    exact ⟨_, solveWithin_eq_ok_iff.mpr ⟨hpos, rfl⟩, outcome_of_topological_of_lt hwf htop hk⟩
  · have htop := topological_queue_start (a := analysis) hwf hacyclic hreach
    have hk : g.size - 1 ≤ bound.toNat := by omega
    have hq := (queue_after_eq_nil_iff hwf htop bound.toNat).mpr hk
    have hr := reached_after (a := analysis) hwf bound.toNat
    have hsol := mergeSolution_of_settled hwf htop hr hq
    refine ⟨_, _, _, (solve_eq_ok_iff hwf).mpr ⟨by omega, hq, rfl⟩,
      fun n hn => (hr.consistent hwf).factsAt_eq analysis hn, hsol, ?_⟩
    intro input' output' h' n hn
    rw [Fact.same_iff (hsol.lawful_input n) (h'.lawful_input n),
      Fact.same_iff (hsol.lawful_output n) (h'.lawful_output n)]
    exact hsol.agree h' hwf hacyclic hn

/-! Two ways that meet, one of which divides by zero. The edges are listed from the last to the
first. -/

namespace Diamond

def p : Var := { name := "p", type := .primitive .int }
def x : Var := { name := "x", type := .primitive .int }

def test : Node := .stmt 0 0 (.branch (.var p))
def left : Node := .stmt 1 1 (.assign (.var x) (.binary .div (.lit 6) (.lit 3)))
def right : Node := .stmt 2 2 (.assign (.var x) (.binary .rem (.var p) (.lit 0)))
def meet : Node := .stmt 3 3 (.ret (some (.var x)))

def graph : FlowGraph :=
  [(meet, .exit), (left, meet), (right, meet), (test, left), (test, right), (.entry, test)].foldl
    (fun g e => g.addEdge e.1 e.2) (.empty "diamond" [p])

theorem built : graph.Built :=
  (FlowGraph.Built.empty "diamond" [p]).foldl_addEdge _

theorem acyclic : graph.Acyclic :=
  FlowGraph.acyclic_of_rank (fun n => [.entry, test, left, right, meet, .exit].idxOf n) (by decide)

theorem reaches (n : Node) (hn : n ∈ graph.nodes) : graph.Reaches .entry n := by
  have htest : graph.Reaches .entry test := .single (by decide)
  have hleft : graph.Reaches .entry left := htest.tail (by decide)
  have hright : graph.Reaches .entry right := htest.tail (by decide)
  have hmeet : graph.Reaches .entry meet := hleft.tail (by decide)
  have hexit : graph.Reaches .entry .exit := hmeet.tail (by decide)
  have hnodes : graph.nodes = [.entry, .exit, meet, left, right, test] := by decide
  rw [hnodes] at hn
  simp only [List.mem_cons, List.not_mem_nil, or_false] at hn
  rcases hn with rfl | rfl | rfl | rfl | rfl | rfl
  · exact .refl
  · exact hexit
  · exact hmeet
  · exact hleft
  · exact hright
  · exact htest

end Diamond

open Diamond in
theorem acyclic_solved_in_one_pass_diamond :
    (∃ run table, solveWithin analysis graph 5 = .ok run ∧ run.outcome = .ok table ∧
      run.visits.length = 5 ∧ (run.visits.map Visit.node).count meet = 1) ∧
    (∃ run, solveWithin analysis graph 4 = .ok run ∧
      run.outcome = .error (.notConverged 4 1)) ∧
    ∃ table input output, solve graph 5 = .ok table ∧
      factsAt table meet = .ok { input := input meet, output := output meet } ∧
      MergeSolution graph input output := by
  have hsize : graph.size = 6 := by decide
  have hmeet : meet ∈ graph.nodes := by decide
  obtain ⟨hany, hpropagation⟩ := acyclic_solved_in_one_pass built acyclic reaches
  obtain ⟨run, table, hrun, hreturns, hlength, hcount, _⟩ :=
    (hany analysis 5).1 (by rw [hsize]; decide)
  obtain ⟨run', hrun', hbound⟩ := (hany analysis 4).2 (by decide) (by rw [hsize]; decide)
  obtain ⟨table', input, output, hsolve, hfacts, hsol, _⟩ :=
    hpropagation 5 (by rw [hsize]; decide)
  rw [hsize] at hlength hbound
  exact ⟨⟨run, table, hrun, hreturns, hlength, hcount meet hmeet (by decide)⟩,
    ⟨run', hrun', hbound⟩, table', input, output, hsolve, hfacts meet hmeet, hsol⟩

end ConstantFlow.Propagation

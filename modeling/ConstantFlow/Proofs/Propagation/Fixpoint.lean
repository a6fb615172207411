import ConstantFlow.Proofs.Dataflow.History
import ConstantFlow.Proofs.Propagation.Transfer

/-!
# The equations of a finished run

Constant propagation keeps an invariant between its visits: what left a visited node is the effect
of its statement on what arrived, and an edge along which knowledge has not been passed on leads to
a node that waits. With an empty queue this says that the facts solve the flow equations: nothing
leaves a node that does not arrive at its successors, and nothing stale is left anywhere.

Main results:

* `Invariant.next`: a visit keeps the invariant
* `solution_of_settled`: with an empty queue it gives the flow equations
* `solve_eq_ok_iff`: when a run returns, and with which table
* `solve_satisfies_flow_equations`: the facts of every returned table solve the equations
-/

namespace ConstantFlow.Propagation

open Worklist

variable {g : FlowGraph} {s : State Fact}

/-! ## What arrives at a visit -/

theorem arrival_eq_foldl (g : FlowGraph) (s : State Fact) (n : Node) :
    arrival analysis g s n =
      ((g.preds n).map (s.output analysis)).foldl Fact.join (s.input analysis n) := by
  rw [List.foldl_map]
  rfl

/-- What arrives is the least upper bound of what arrived before and what leaves the
predecessors. -/
theorem get_arrival_le_iff (ho : ∀ n, (s.output analysis n).Lawful) {n : Node} {x : Var}
    {v : Value} :
    (arrival analysis g s n).get x ≤ v ↔
      (s.input analysis n).get x ≤ v ∧ ∀ p ∈ g.preds n, (s.output analysis p).get x ≤ v := by
  have hlawful : ∀ k ∈ (g.preds n).map (s.output analysis), k.Lawful := by
    intro k hk
    rcases List.mem_map.mp hk with ⟨p, _, rfl⟩
    exact ho p
  rw [arrival_eq_foldl, Fact.get_foldl_join_le_iff hlawful, List.forall_mem_map]

theorem input_le_arrival (ho : ∀ n, (s.output analysis n).Lawful) (n : Node) :
    s.input analysis n ≤ arrival analysis g s n :=
  fun _ => ((get_arrival_le_iff ho).mp le_rfl).1

theorem output_le_arrival (ho : ∀ n, (s.output analysis n).Lawful) {p n : Node}
    (hp : (p, n) ∈ g.edges) : s.output analysis p ≤ arrival analysis g s n :=
  fun _ => ((get_arrival_le_iff ho).mp le_rfl).2 p (FlowGraph.mem_preds_iff.mpr hp)

theorem lawful_arrival (hi : ∀ n, (s.input analysis n).Lawful) (n : Node) :
    (arrival analysis g s n).Lawful := by
  rw [arrival_eq_foldl]
  exact Fact.lawful_foldl_join (hi n) _

/-! ## The invariant -/

/-- What holds between any two visits of constant propagation. -/
structure Invariant (g : FlowGraph) (s : State Fact) : Prop where
  lawful_input : ∀ n, (s.input analysis n).Lawful
  lawful_output : ∀ n, (s.output analysis n).Lawful
  entry_input : s.input analysis .entry = .empty
  entry_output : s.output analysis .entry = boundary g
  /-- Nothing but the assigned variable is known only where it leaves. -/
  not_stale : ∀ n, n ≠ .entry → ∀ x, (∀ e, n.code.definition? ≠ some (x, e)) →
    (s.input analysis n).get x = .undefined → (s.output analysis n).get x = .undefined
  effect_of_visited : ∀ n, s.Visited n →
    (s.output analysis n).get = (effect n.code (s.input analysis n)).get
  /-- What leaves a node has arrived at its successors, or they wait for it. -/
  covered : ∀ p n, (p, n) ∈ g.edges → n ≠ .entry →
    n ∈ s.queue ∨ s.output analysis p ≤ s.input analysis n

theorem Invariant.start (hg : g.WellFormed) : Invariant g (start analysis g) := by
  have hin : ∀ n, (Worklist.start analysis g).input analysis n = .empty :=
    input_start analysis g
  have hout : ∀ n, (Worklist.start analysis g).output analysis n =
      if n = .entry then boundary g else .empty :=
    output_start analysis hg
  constructor
  case lawful_input =>
    intro n
    rw [hin]
    exact Fact.lawful_empty
  case lawful_output =>
    intro n
    rw [hout]
    split
    · exact lawful_boundary g
    · exact Fact.lawful_empty
  case entry_input => exact hin .entry
  case entry_output => exact (hout .entry).trans (if_pos rfl)
  case not_stale =>
    intro n hn x _ _
    rw [hout, if_neg hn]
    rfl
  case effect_of_visited =>
    rintro n ⟨v, hv, _⟩
    cases hv
  case covered =>
    -- at the start every node but the entry waits
    intro p n he hn
    have hperm := FlowGraph.reversePostorder_perm hg
    have hmem := hperm.mem_iff.mpr (hg.target_mem he)
    exact Or.inl (List.mem_filter.mpr ⟨hmem, by simpa using hn⟩)

/-- A visit keeps the invariant. -/
theorem Invariant.next (hs : Consistent g s) (hinv : Invariant g s) {n : Node} {rest : List Node}
    (hq : s.queue = n :: rest) : Invariant g (Worklist.next analysis g s n rest) := by
  have hne : n ≠ .entry := hs.head_ne_entry hq
  have hin := input_next analysis hs (hs.head_mem hq) rest
  have hout := output_next analysis hs (hs.head_mem hq) rest
  have harr : (arrival analysis g s n).Lawful := lawful_arrival hinv.lawful_input n
  have hle := input_le_arrival (g := g) hinv.lawful_output n
  -- a variable that does not arrive did not arrive before, so it did not leave before either
  have hstale : ∀ x, (∀ e, n.code.definition? ≠ some (x, e)) →
      (arrival analysis g s n).get x = .undefined → (s.output analysis n).get x = .undefined := by
    intro x hx h0
    exact hinv.not_stale n hne x hx (le_antisymm (h0 ▸ hle x) (Value.undefined_le _))
  constructor
  case lawful_input =>
    intro m
    rw [hin]
    split
    · exact harr
    · exact hinv.lawful_input m
  case lawful_output =>
    intro m
    rw [hout]
    split
    · exact lawful_transfer (hinv.lawful_output n) n.code _
    · exact hinv.lawful_output m
  case entry_input =>
    rw [hin, if_neg (Ne.symm hne)]
    exact hinv.entry_input
  case entry_output =>
    rw [hout, if_neg (Ne.symm hne)]
    exact hinv.entry_output
  case not_stale =>
    intro m hm x hx
    rw [hin, hout]
    by_cases hmn : m = n
    · subst hmn
      rw [if_pos rfl, if_pos rfl]
      intro h0
      show (transfer m.code _ _).1.get x = _
      rw [get_transfer_of_ne hx harr, if_pos h0, hstale x hx h0]
    · rw [if_neg hmn, if_neg hmn]
      exact hinv.not_stale m hm x hx
  case effect_of_visited =>
    intro m hm
    rw [hin, hout]
    by_cases hmn : m = n
    · subst hmn
      rw [if_pos rfl, if_pos rfl]
      exact get_transfer_eq_effect harr hstale
    · rw [if_neg hmn, if_neg hmn]
      exact hinv.effect_of_visited m ((visited_next.mp hm).resolve_left hmn)
  case covered =>
    intro p m he hm
    by_cases hchanged : p = n ∧ (record analysis g s n).changed = true
    · rcases hchanged with ⟨rfl, hc⟩
      exact Or.inl (mem_queue_next_of_changed hs hq hc (FlowGraph.mem_succs_iff.mpr he) hm)
    · -- what leaves `p` is what left it before the visit
      have hsame : ((Worklist.next analysis g s n rest).output analysis p).get =
          (s.output analysis p).get := by
        rw [hout]
        by_cases hp : p = n
        · have hc : (record analysis g s n).changed = false := by
            rw [← Bool.not_eq_true]
            exact fun hc => hchanged ⟨hp, hc⟩
          rw [if_pos hp, hp]
          exact get_transfer_of_unchanged harr hc
        · rw [if_neg hp]
      rw [hin]
      by_cases hmn : m = n
      · -- the visit has just joined in what leaves `p`, which may be `n` itself
        rw [if_pos hmn]
        exact Or.inr fun x => hsame ▸ output_le_arrival hinv.lawful_output (hmn ▸ he) x
      · rw [if_neg hmn]
        rcases hinv.covered p m he hm with hw | hw
        · exact Or.inl (mem_queue_next_of_ne hq hw hmn)
        · exact Or.inr fun x => hsame ▸ hw x

theorem invariant_of_reached (hg : g.WellFormed) (h : Reached analysis g s) : Invariant g s :=
  (h.invariant hg (Invariant.start hg) fun _ _ _ _ hs hq hinv => hinv.next hs hq).2

/-! ## Finished runs -/

/-- The flow equations: facts that arrive at and leave the nodes of a graph, such that the entry
lets out the boundary, every other node lets out the effect of its statement, and whatever leaves
a node arrives at its successors. -/
structure Solution (g : FlowGraph) (input output : Node → Fact) : Prop where
  entry_input : input .entry = .empty
  entry_output : output .entry = boundary g
  effect_eq : ∀ n ∈ g.nodes, n ≠ .entry → (output n).get = (effect n.code (input n)).get
  passed_on : ∀ p n, (p, n) ∈ g.edges → n ≠ .entry → output p ≤ input n

/-- Once the queue is empty the equations hold. -/
theorem solution_of_settled (hg : g.WellFormed) (h : Reached analysis g s) (hq : s.queue = []) :
    Solution g (s.input analysis) (s.output analysis) := by
  have hinv := invariant_of_reached hg h
  have hnone : ∀ n, n ∉ s.queue := by simp [hq]
  constructor
  case entry_input => exact hinv.entry_input
  case entry_output => exact hinv.entry_output
  case effect_eq =>
    intro n hn he
    have hv := (h.queued_or_visited hg hn he).resolve_left (hnone n)
    exact hinv.effect_of_visited n hv
  case passed_on =>
    intro p n he hn
    exact (hinv.covered p n he hn).resolve_left (hnone n)

/-- What solving answers within a bound that is accepted. -/
theorem solve_of_pos (hg : g.WellFormed) {bound : Int} (hb : 0 < bound) :
    solve g bound =
      if (after analysis g bound.toNat).queue = [] then .ok (after analysis g bound.toNat).table
      else .error (.notConverged bound.toNat (after analysis g bound.toNat).queue.length) := by
  simp only [solve, run, solveWithin, if_neg (Int.not_le.mpr hb)]
  exact outcome_solve hg bound.toNat

theorem solve_of_not_pos {bound : Int} (hb : bound ≤ 0) :
    solve g bound = .error .boundNotPositive := by
  simp only [solve, run, solveWithin, if_pos hb]
  rfl

/-- Solving returns a table exactly if the bound is positive and the queue is empty when it is
reached. -/
theorem solve_eq_ok_iff (hg : g.WellFormed) {bound : Int} {table : FactTable Fact} :
    solve g bound = .ok table ↔
      0 < bound ∧ (after analysis g bound.toNat).queue = [] ∧
        table = (after analysis g bound.toNat).table := by
  by_cases hb : 0 < bound
  · rw [solve_of_pos hg hb]
    by_cases hq : (after analysis g bound.toNat).queue = []
    · simp [hb, hq, eq_comm]
    · simp [hq]
  · rw [solve_of_not_pos (Int.not_lt.mp hb)]
    simp [hb]

theorem exists_of_isOk {bound : Int} (h : (solve g bound).isOk = true) :
    ∃ table, solve g bound = .ok table := by
  cases hrun : solve g bound with
  | error e =>
    rw [hrun] at h
    cases h
  | ok table => exact ⟨table, rfl⟩

/-- What a returned table says about each node. -/
theorem factsAt_of_solve (hg : g.WellFormed) {bound : Int} {table : FactTable Fact}
    (h : solve g bound = .ok table) :
    ∃ s : State Fact, Reached analysis g s ∧ s.queue = [] ∧ table.map Prod.fst = g.nodes ∧
      ∀ n ∈ g.nodes, factsAt table n =
        .ok { input := s.input analysis n, output := s.output analysis n } := by
  rcases (solve_eq_ok_iff hg).mp h with ⟨_, hq, rfl⟩
  have hr := reached_after (a := analysis) hg bound.toNat
  have hs := hr.consistent hg
  exact ⟨_, hr, hq, hs.nodes_eq, fun n hn => hs.factsAt_eq analysis hn⟩

/-- A returned table lists every node. Nothing arrives at the entry, and the boundary leaves it. At
any other node everything has arrived that leaves its predecessors; and what leaves it is what
arrives, entry by entry, except that an assigned tracked variable is listed with the value of the
right-hand side, or not at all if that is unknown. -/
theorem solve_satisfies_flow_equations {g : FlowGraph} (hg : g.Built) {bound : Int}
    {table : FactTable Fact} (h : solve g bound = .ok table) :
    table.map Prod.fst = g.nodes ∧
      factsAt table .entry = .ok { input := .empty, output := boundary g } ∧
      ∀ n ∈ g.nodes, n ≠ .entry → ∃ facts, factsAt table n = .ok facts ∧
        (∀ p ∈ g.preds n, ∃ before, factsAt table p = .ok before ∧
          ∀ x, before.output.get x ≤ facts.input.get x) ∧
        (∀ x, (∀ e, n.code.definition? ≠ some (x, e)) →
          facts.output.get? x = facts.input.get? x) ∧
        ∀ x e, n.code.definition? = some (x, e) →
          facts.output.get? x =
            if e.eval facts.input = .undefined then none else some (e.eval facts.input) := by
  have hwf := hg.wellFormed
  rcases factsAt_of_solve hwf h with ⟨s, hr, hq, hnodes, hfacts⟩
  have hinv := invariant_of_reached hwf hr
  have hsol := solution_of_settled hwf hr hq
  refine ⟨hnodes, ?_, fun n hn he => ⟨_, hfacts n hn, ?_, ?_, ?_⟩⟩
  · rw [hfacts .entry hwf.entry_mem, hsol.entry_input, hsol.entry_output]
  · intro p hp
    have hedge := FlowGraph.mem_preds_iff.mp hp
    exact ⟨_, hfacts p (hwf.source_mem hedge), hsol.passed_on p n hedge he⟩
  · -- lawful facts list a variable exactly if something is known of it
    intro x hx
    rw [(hinv.lawful_output n).get?_eq, (hinv.lawful_input n).get?_eq, hsol.effect_eq n hn he,
      get_effect_of_ne hx]
  · intro x e hd
    rw [(hinv.lawful_output n).get?_eq, hsol.effect_eq n hn he, get_effect_self hd]

/-! A loop that forgets: `y = p % z` is first visited with nothing known of `z`, when it lets out
some `y`, and again with `z = 0`, when it lets out none. -/

namespace Forgetful

def p : Var := { name := "p", type := .primitive .int }
def y : Var := { name := "y", type := .primitive .int }
def z : Var := { name := "z", type := .primitive .int }

def use : Node := .stmt 0 0 (.assign (.var y) (.binary .rem (.var p) (.var z)))
def clear : Node := .stmt 1 1 (.assign (.var z) (.lit 0))

def graph : FlowGraph :=
  [(.entry, use), (use, clear), (clear, use), (clear, .exit), (.exit, .entry)].foldl
    (fun g e => g.addEdge e.1 e.2) (.empty "forget" [p])

theorem built : graph.Built :=
  (FlowGraph.Built.empty "forget" [p]).foldl_addEdge _

theorem returns : ∃ table, solve graph 20 = .ok table :=
  exists_of_isOk (by decide)

/-- What arrives at `y = p % z` in the end. -/
theorem input_use {table : FactTable Fact} (h : solve graph 20 = .ok table)
    {facts : NodeFacts Fact} (hf : factsAt table use = .ok facts) :
    facts.input = ⟨[(p, .nac), (y, .nac), (z, .const 0)]⟩ := by
  have hin : ((solve graph 20).bind fun table => (factsAt table use).map NodeFacts.input) =
      .ok ⟨[(p, .nac), (y, .nac), (z, .const 0)]⟩ := by decide
  simpa [h, hf, Except.bind, Except.map] using hin

end Forgetful

open Forgetful in
theorem solve_satisfies_flow_equations_forgetful :
    ∃ table facts, solve graph 20 = .ok table ∧ factsAt table use = .ok facts ∧
      facts.input.get y = .nac ∧ facts.output.get? y = none ∧
      ∃ before, factsAt table clear = .ok before ∧
        ∀ x, before.output.get x ≤ facts.input.get x := by
  rcases returns with ⟨table, hrun⟩
  rcases (solve_satisfies_flow_equations built hrun).2.2 use (by decide) (by decide) with
    ⟨facts, hfacts, hpreds, _, hself⟩
  have hinput := input_use hrun hfacts
  have hy := hself y _ rfl
  rw [if_pos (by rw [hinput]; decide)] at hy
  exact ⟨table, facts, hrun, hfacts, by rw [hinput]; decide, hy, hpreds clear (by decide)⟩

end ConstantFlow.Propagation
